import MutationRules.Proofs.Configuration.Line
import MutationRules.Proofs.RuleSet.Standard

/-!
# Reading the standard configuration

The lines of the standard rule set are read entry by entry unless a literal of the
settings ends an entry. Only the lines of a constant, a call and a switch hold literals
of the settings, so these literals alone decide which lines are read.
-/

namespace MutationRules

namespace Settings

/-- The literals that the replacements of a matcher are given. A callee is given only if it has
another to be exchanged with. -/
def supplied (settings : Settings) : Operator → List String
  | .arithConst => settings.scalarConstants
  | .call => settings.shuffleCounters ++
      settings.calleeNames.filter fun name => settings.calleeNames.any (· != name)
  | .switch => settings.shuffleCounters ++ settings.caseRemovalCounters
  | _ => []

/-- The literals that a matcher's replacements are given are kept as sets. -/
theorem supplies_iff {settings : Settings} {matcher : Operator} {kind : Kind} :
    (Constants.ofSettings settings).Supplies matcher kind ↔
      ∃ literal ∈ settings.supplied matcher, .literal literal = kind := by
  unfold Constants.Supplies supplied
  split
  · simp [Constants.ofSettings]
  · simp only [Constants.ofSettings, KindSet.mem_literals, List.mem_append, List.mem_filter,
      List.any_eq_true, bne_iff_ne, or_and_right, exists_or]
    refine or_congr_right ⟨?_, ?_⟩
    · rintro ⟨⟨name, hname, rfl⟩, _, ⟨other, hother, rfl⟩, hne⟩
      exact ⟨name, ⟨hname, other, hother, fun he => hne (congrArg Kind.literal he)⟩, rfl⟩
    · rintro ⟨name, ⟨hname, other, hother, hne⟩, rfl⟩
      exact ⟨⟨name, hname, rfl⟩, _, ⟨other, hother, rfl⟩, fun he => hne (Kind.literal.inj he)⟩
  · simp [Constants.ofSettings, or_and_right, exists_or]
  · simp

end Settings

namespace Standard

open Declaration (Topic)

variable {settings : Settings} {t : Taxonomy} (h : Taxonomy.standard settings = .ok t)

include h

/-- The operands of a standard binding are categories, zero and literals that the matcher is
given. -/
theorem kind_of_mem_bindings {matcher : Operator} (hm : matcher ∈ t.matchers) {bs : List Binding}
    (hbs : t.bindings matcher = .ok bs) {b : Binding} (hb : b ∈ bs) {o : Operand}
    (ho : o ∈ b.key.operands ++ b.replacement.operands) :
    o.kind ∈ Kind.categories ∨ o.kind = Constants.zero ∨ t.constants.Supplies matcher o.kind := by
  rcases Taxonomy.cases_of_mem_bindings hbs hb with ⟨_, _, _, hbound⟩ | ⟨_, kinds, hkinds, rfl⟩
  · have hadmits : (t.format matcher).Admits o := by
      rcases List.mem_append.1 ho with ho | ho
      · exact hbound.admits_key o ho
      · exact hbound.admits_replacement o ho
    obtain ⟨_, _, kind, hc, hk, rfl⟩ := hadmits
    exact Or.inl (mem_categories_of_mem_format h hm (List.mem_of_getElem? hc) hk)
  · obtain ⟨kind, hkind, rfl⟩ := List.mem_map.1 ho
    exact Taxonomy.mem_of_mem_bareOperands hkinds hkind

/-- A matcher whose replacements are given literals has no operands, and the table has them. -/
theorem of_mem_supplyingPairs {matcher replacer : Operator}
    (hp : (matcher, replacer) ∈ Taxonomy.supplyingPairs) :
    matcher ∈ t.matchers ∧ t.format matcher = [] ∧ replacer ∈ t.bareReplacers matcher := by
  have htables : ∀ pair ∈ Taxonomy.supplyingPairs, ∃ table ∈ Topic.table.statements replacements,
      pair.1 ∈ table.1 ∧ pair.2 ∈ table.2.1 ∧ pair.2 ≠ pair.1 ∧ pair.2 ∉ table.2.2 := by decide
  have hfamilies : ∀ pair ∈ Taxonomy.supplyingPairs,
      ∃ family ∈ Operator.matchOnlyFamilies, pair.1 ∈ family := by decide
  have hshift : ∀ pair ∈ Taxonomy.supplyingPairs, pair.1 = .arithConst → pair.2 = .add := by
    decide
  obtain ⟨table, htable, hm, hr⟩ := htables _ hp
  obtain ⟨family, hf, ho⟩ := hfamilies _ hp
  refine ⟨(mem_matchers_iff h).2 ⟨table, htable, hm⟩, format_matchOnly h family hf ho, ?_⟩
  by_cases hconst : matcher = .arithConst
  · obtain rfl : replacer = .add := hshift _ hp hconst
    subst hconst
    exact List.mem_cons_self ..
  · rw [Taxonomy.bareReplacers_of_ne hconst]
    exact (mem_replacers_iff h).2 ⟨table, htable, hm, hr⟩

/-- The line of a group is read exactly if no literal that its matcher is given ends an entry. -/
theorem isReadable_iff_supplied {set : RuleSet} (hset : t.synthesize = .ok set) {g : RuleGroup}
    (hg : g ∈ set.groups) : Configuration.IsReadable g ↔
      ∀ literal ∈ settings.supplied g.key.operator, Configuration.entryEnd ∉ literal.toList := by
  obtain ⟨m, hm, bs, groups, hbs, hgrouping, hg⟩ := Taxonomy.exists_grouping_of_mem hset hg
  obtain ⟨a, ha, hkey⟩ := hgrouping.exists_key hg
  have hoperator : g.key.operator = m := hkey ▸ Taxonomy.key_operator_of_mem_bindings hbs ha
  have hsupplied : ∀ {kind : Kind}, t.constants.Supplies m kind ↔
      ∃ literal ∈ settings.supplied m, .literal literal = kind := by
    rw [Taxonomy.constants_of_built h]
    exact Settings.supplies_iff
  rw [Configuration.isReadable_iff fun rule hr => hgrouping.name_eq hg hr, hoperator]
  constructor
  · intro hread literal hl
    obtain ⟨replacer, hp, kinds, hkinds, hkind⟩ :=
      Taxonomy.exists_bareOperands_of_supplies (hsupplied.2 ⟨literal, hl, rfl⟩)
    obtain ⟨_, hformat, hr⟩ := of_mem_supplyingPairs h hp
    have hb : Taxonomy.bareBinding m replacer kinds ∈ bs :=
      (Taxonomy.mem_bindings_iff_of_format_eq_nil hformat hbs).2 ⟨replacer, hr, kinds, hkinds, rfl⟩
    obtain ⟨_, _, _, _, rfl⟩ := (Taxonomy.mem_bindings_iff_of_format_eq_nil hformat hbs).1 ha
    have hrule := (hgrouping.mem_rules_iff hg).2 ⟨_, hb, congrArg Expression.text hkey, rfl⟩
    exact hread _ hrule _ (List.mem_append_right _ (List.mem_map_of_mem hkind))
  · intro hnone rule hr o ho
    have hoperand : ∀ b ∈ bs, ∀ o ∈ b.key.operands ++ b.replacement.operands,
        Configuration.entryEnd ∉ o.kind.token.toList := by
      intro b hb o ho
      have hcategories : ∀ kind ∈ Kind.categories,
          Configuration.entryEnd ∉ kind.token.toList := by decide
      rcases kind_of_mem_bindings h hm hbs hb ho with hcategory | hzero | hs
      · exact hcategories _ hcategory
      · rw [hzero]
        decide
      · obtain ⟨literal, hl, he⟩ := hsupplied.1 hs
        exact he ▸ hnone literal hl
    obtain ⟨b, hb, _, rfl⟩ := (hgrouping.mem_rules_iff hg).1 hr
    rcases List.mem_append.1 ho with ho | ho
    · exact hoperand a ha o (List.mem_append_left _ (hkey ▸ ho))
    · exact hoperand b hb o (List.mem_append_right _ ho)

/-- A matcher whose replacements are given a literal has a group. -/
theorem exists_group_of_supplied {set : RuleSet} (hset : t.synthesize = .ok set) {op : Operator}
    {literal : String} (hl : literal ∈ settings.supplied op) :
    ∃ g ∈ set.groups, g.key = ⟨op, []⟩ := by
  have hs : t.constants.Supplies op (.literal literal) := by
    rw [Taxonomy.constants_of_built h]
    exact Settings.supplies_iff.2 ⟨literal, hl, rfl⟩
  obtain ⟨replacer, hp, kinds, hkinds, _⟩ := Taxonomy.exists_bareOperands_of_supplies hs
  obtain ⟨hm, hformat, hr⟩ := of_mem_supplyingPairs h hp
  obtain ⟨g, hg, hkey, _⟩ := Taxonomy.exists_rule_of_bareOperands hset hm hformat hr hkinds
  exact ⟨g, hg, hkey⟩

end Standard

namespace Configuration

/-- Accepted settings have a rule set in which the line of a group is read exactly if no literal
that its matcher is given ends an entry, and all lines are read exactly if no literal does that any
matcher is given. -/
theorem standard_isReadable_iff (settings : Settings) (hv : settings.validate = .ok ()) :
    ∃ t set, Taxonomy.standard settings = .ok t ∧ t.synthesize = .ok set ∧
      (∀ g ∈ set.groups, IsReadable g ↔
        ∀ literal ∈ settings.supplied g.key.operator, entryEnd ∉ literal.toList) ∧
      ((∀ g ∈ set.groups, IsReadable g) ↔
        ∀ op, ∀ literal ∈ settings.supplied op, entryEnd ∉ literal.toList) := by
  obtain ⟨t, set, ht, hset, _⟩ := Settings.synthesizes_of_validate hv
  have hgroup : ∀ g ∈ set.groups, IsReadable g ↔
      ∀ literal ∈ settings.supplied g.key.operator, entryEnd ∉ literal.toList :=
    fun _ hg => Standard.isReadable_iff_supplied ht hset hg
  refine ⟨t, set, ht, hset, hgroup, ?_, ?_⟩
  · intro hread op literal hl
    obtain ⟨g, hg, hkey⟩ := Standard.exists_group_of_supplied ht hset hl
    have hoperator : g.key.operator = op := congrArg Expression.operator hkey
    exact (hgroup g hg).1 (hread g hg) literal (hoperator ▸ hl)
  · intro hnone g hg
    exact (hgroup g hg).2 (hnone g.key.operator)

/-- A single callee is exchanged with none, so it may end an entry and every line is read. -/
theorem loneCallee_isReadable : ({ calleeNames := ["a;b"] } : Settings).validate = .ok () ∧
    ∃ t set, Taxonomy.standard { calleeNames := ["a;b"] } = .ok t ∧ t.synthesize = .ok set ∧
      ∀ g ∈ set.groups, IsReadable g := by
  have hv : ({ calleeNames := ["a;b"] } : Settings).validate = .ok () := by decide
  have hnone : ∀ op, ∀ literal ∈ ({ calleeNames := ["a;b"] } : Settings).supplied op,
      entryEnd ∉ literal.toList := by
    intro op
    cases op <;> decide
  obtain ⟨t, set, ht, hset, _, hall⟩ := standard_isReadable_iff _ hv
  exact ⟨hv, t, set, ht, hset, hall.2 hnone⟩

/-- An accepted offset ends an entry, and the line of a constant is not read. -/
theorem offset_not_isReadable : ({ scalarConstants := ["1;2"] } : Settings).validate = .ok () ∧
    ∃ t set, Taxonomy.standard { scalarConstants := ["1;2"] } = .ok t ∧ t.synthesize = .ok set ∧
      ∃ g ∈ set.groups, g.key = ⟨.arithConst, []⟩ ∧ ¬ IsReadable g := by
  have hv : ({ scalarConstants := ["1;2"] } : Settings).validate = .ok () := by decide
  obtain ⟨t, set, ht, hset, _⟩ := Settings.synthesizes_of_validate hv
  have hl : "1;2" ∈ ({ scalarConstants := ["1;2"] } : Settings).supplied .arithConst :=
    List.mem_singleton_self _
  obtain ⟨g, hg, hkey⟩ := Standard.exists_group_of_supplied ht hset hl
  refine ⟨hv, t, set, ht, hset, g, hg, hkey, fun hread => ?_⟩
  have hoperator : g.key.operator = .arithConst := congrArg Expression.operator hkey
  exact absurd ((Standard.isReadable_iff_supplied ht hset hg).1 hread _ (hoperator ▸ hl))
    (by decide)

end Configuration

end MutationRules
