import MutationRules.Proofs.RuleSet.Standard

/-!
# Reading the names of a rule set

The name of a rule is read as its own matched expression and replacement, in every rule
set of a taxonomy whose formats admit no literal that a name could not hold. Whatever
the literals of the settings, this holds of the standard taxonomy.
-/

namespace MutationRules

/-- The name of a rule is read as its own expressions if the formats admit admissible kinds only, as
those of accepted settings do. -/
theorem synthesized_names_decode :
    (∀ (settings : Settings) (declarations : List Declaration) (t : Taxonomy) (set : RuleSet),
      Taxonomy.ofDeclarations settings declarations = .ok t → t.HasAdmissibleFormats →
        t.synthesize = .ok set → ∀ key rule, (key, rule) ∈ set.rules →
          RuleName.decode rule.name = .ok ⟨key.side, rule.replacement.side⟩) ∧
      ∀ settings : Settings, settings.validate = .ok () →
        ∃ t, Taxonomy.standard settings = .ok t ∧ t.HasAdmissibleFormats := by
  constructor
  · intro settings declarations t set ht hformats hset key rule hrule
    obtain ⟨g, hg, hpair⟩ := List.mem_flatMap.1 hrule
    obtain ⟨_, hr, he⟩ := List.mem_map.1 hpair
    obtain ⟨rfl, rfl⟩ := Prod.mk.inj he
    obtain ⟨m, _, groups, hgroups, hg⟩ := (Taxonomy.mem_groups_iff hset).1 hg
    exact (hformats.hasAdmissibleKinds ht).decode_name hgroups hg hr
  · intro settings hv
    obtain ⟨t, ht⟩ := Standard.exists_standard hv
    exact ⟨t, ht, (Standard.hasAdmissibleKinds ht).formats⟩

/-- By default a constant is replaced by its sum with minus one, and the rule's name is read as
this. -/
theorem negativeShift_decodes : ({} : Settings).validate = .ok () ∧
    ∃ t set rule, Taxonomy.standard {} = .ok t ∧ t.HasAdmissibleFormats ∧
      t.synthesize = .ok set ∧ (⟨.arithConst, []⟩, rule) ∈ set.rules ∧
        rule.name = "C!ADD$C$-1$" ∧
          RuleName.decode "C!ADD$C$-1$" = .ok ⟨⟨.arithConst, []⟩, ⟨.add, ["C", "-1"]⟩⟩ := by
  have hv : ({} : Settings).validate = .ok () := by decide
  obtain ⟨t, ht, hformats⟩ := synthesized_names_decode.2 _ hv
  obtain ⟨t', set, ht', hset, _⟩ := Settings.synthesizes_of_validate hv
  obtain rfl := Except.ok.inj (ht.symm.trans ht')
  have hmatcher : Operator.arithConst ∈ t.matchers :=
    (Standard.mem_matchers_iff ht).2 (by decide)
  have hformat : t.format .arithConst = [] :=
    Standard.format_matchOnly ht Operator.arithmeticValues (by decide) (by decide)
  have hadd : Operator.add ∈ t.bareReplacers .arithConst := List.mem_cons_self ..
  have hkinds : [Kind.arithConst, .literal "-1"] ∈ t.bareOperands .arithConst .add := by
    rw [Taxonomy.bareOperands, Taxonomy.constants_of_built ht]
    decide
  obtain ⟨g, hg, hkey, hr⟩ :=
    Taxonomy.exists_rule_of_bareOperands hset hmatcher hformat hadd hkinds
  have hrule : (⟨.arithConst, []⟩, _) ∈ set.rules :=
    List.mem_flatMap.2 ⟨g, hg, List.mem_map.2 ⟨_, hr, congrArg (·, _) hkey⟩⟩
  have hname : RuleName.encode (Taxonomy.bareBinding .arithConst .add
      [.arithConst, .literal "-1"]) = "C!ADD$C$-1$" := by decide
  have hread := synthesized_names_decode.1 _ _ t set ht hformats hset _ _ hrule
  rw [Rule.ofBinding, hname] at hread
  exact ⟨hv, t, set, _, ht, hformats, hset, hrule, hname, hread⟩

end MutationRules
