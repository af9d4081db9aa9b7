import MutationRules.Proofs.RuleSet.Influence
import MutationRules.Proofs.Text.Order

/-!
# Rules with literals of the settings

Of all standard matchers only a constant, a call and a switch are replaced by something
that holds a literal of the settings. Their groups list the literals in code-point order,
each once; the groups of the other matchers are the same for all settings.
-/

namespace MutationRules

/-! ## Literals in order -/

theorem Kind.literal_beq (a b : String) : (literal a == literal b) = (a == b) := by
  rw [Bool.eq_iff_iff, beq_iff_eq, beq_iff_eq, literal.injEq]

/-- Literals are ordered by their texts. -/
theorem Kind.compare_literal_eq_lt_iff {a b : String} :
    compare (literal a) (literal b) = .lt ↔ Text.Precedes a b := by
  have hrank : compare (literal a).rank (literal b).rank = .eq := Std.ReflCmp.compare_self
  rw [compare_eq, hrank, Ordering.then_eq, token, token, Text.compare_eq_lt_iff]

/-- The literals of some texts are listed in the order of the texts. -/
theorem KindSet.exists_lists_literals (texts : List String) :
    ∃ sorted, Lists Text.Precedes (· ∈ texts) sorted ∧
      (literals texts).toList = sorted.map .literal := by
  have hliteral : ∀ kind ∈ (literals texts).toList, .literal kind.token = kind := by
    intro kind hk
    obtain ⟨text, _, rfl⟩ := mem_literals.1 hk
    rfl
  have hmap : (literals texts).toList =
      ((literals texts).toList.map Kind.token).map .literal := by
    rw [List.map_map]
    exact (List.map_congr_left hliteral).trans (List.map_id _) |>.symm
  refine ⟨_, ⟨?_, fun text => ?_⟩, hmap⟩
  · have hordered := (literals texts).increasing
    rw [hmap, Increasing, List.pairwise_map] at hordered
    exact hordered.imp Kind.compare_literal_eq_lt_iff.1
  · rw [List.mem_map]
    constructor
    · rintro ⟨kind, hk, rfl⟩
      obtain ⟨text, ht, rfl⟩ := mem_literals.1 hk
      exact ht
    · intro ht
      exact ⟨.literal text, mem_literals.2 ⟨text, ht, rfl⟩, rfl⟩

/-- The pairs of different entries of a sorted list are listed by the first, then by the second
entry. -/
theorem Lists.pairs {α : Type} [DecidableEq α] {before : α → α → Prop} {p : α → Prop}
    {xs : List α} (h : Lists before p xs) :
    Lists (Prod.Lex before before) (fun q => p q.1 ∧ p q.2 ∧ q.1 ≠ q.2)
      (xs.flatMap fun a => (xs.filter (· != a)).map fun b => (a, b)) where
  ordered := by
    rw [List.pairwise_flatMap]
    constructor
    · intro a _
      rw [List.pairwise_map]
      exact (h.ordered.filter _).imp fun hlt => Prod.Lex.right a hlt
    · refine h.ordered.imp fun hlt => ?_
      intro q hq q' hq'
      obtain ⟨b, _, rfl⟩ := List.mem_map.1 hq
      obtain ⟨b', _, rfl⟩ := List.mem_map.1 hq'
      exact Prod.Lex.left b b' hlt
  mem_iff := by
    rintro ⟨a, b⟩
    simp only [List.mem_flatMap, List.mem_map, List.mem_filter, bne_iff_ne, h.mem_iff,
      Prod.mk.injEq]
    constructor
    · rintro ⟨_, ha, _, ⟨hb, hne⟩, rfl, rfl⟩
      exact ⟨ha, hb, hne.symm⟩
    · rintro ⟨ha, hb, hne⟩
      exact ⟨a, ha, b, ⟨hb, hne.symm⟩, rfl, rfl⟩

/-! ## Groups of matchers without operands -/

/-- The group of a matcher without operands and some replacements, if there are any. -/
def RuleGroup.bare (matcher : Operator) (replacements : List Expression) : List RuleGroup :=
  if replacements = [] then []
  else [⟨⟨matcher, []⟩, replacements.map fun r => .ofBinding ⟨⟨matcher, []⟩, r⟩⟩]

/-- A matcher without operands has the group of its replacements with bare operands. -/
theorem Taxonomy.groups_eq_bare {t : Taxonomy} {matcher : Operator}
    (hformat : t.format matcher = []) {groups : List RuleGroup}
    (hgroups : t.synthesizeMatcher matcher = .ok groups) :
    groups = RuleGroup.bare matcher ((t.bareReplacers matcher).flatMap fun replacer =>
      (t.bareOperands matcher replacer).map fun kinds => ⟨replacer, kinds.map .bare⟩) := by
  obtain ⟨bs, hbs, _, rfl⟩ := synthesizeMatcher_eq_ok_iff.1 hgroups
  have hkey : ∀ b ∈ bs, b.key = ⟨matcher, []⟩ := by
    intro b hb
    obtain ⟨_, _, _, _, rfl⟩ := (mem_bindings_iff_of_format_eq_nil hformat hbs).1 hb
    rfl
  rw [(RuleGroup.isGrouping_collect bs).eq_of_forall_key_eq hkey, RuleGroup.bare]
  rw [bindings_eq_nullaryBindings hformat] at hbs
  obtain ⟨_, rfl⟩ := nullaryBindings_eq_ok_iff.1 hbs
  simp [bareBindings, bareBinding, List.map_flatMap, Function.comp_def]

/-! ## Groups with literals -/

/-- An operator with literals as its operands. -/
def Expression.ofLiterals (op : Operator) (texts : List String) : Expression :=
  ⟨op, texts.map fun text => .bare (.literal text)⟩

/-- Whether the rules of constants, calls and switches in a rule set are those that the literals
of some settings make, in order. -/
structure RuleSet.HoldsLiterals (set : RuleSet) (settings : Settings) : Prop where
  /-- A constant is shifted by each offset, then zeroed. -/
  constant : ∃ offsets, Lists Text.Precedes (· ∈ settings.scalarConstants) offsets ∧
    set.groupsFor .arithConst = RuleGroup.bare .arithConst
      (offsets.map (fun k => ⟨.add, [.bare .arithConst, .bare (.literal k)]⟩) ++
        [.ofLiterals .constantValue ["0"]])
  /-- A callee is exchanged for each other one, then the arguments are shuffled by each counter. -/
  call : ∃ callees counters,
    Lists (Prod.Lex Text.Precedes Text.Precedes)
      (fun p => p.1 ∈ settings.calleeNames ∧ p.2 ∈ settings.calleeNames ∧ p.1 ≠ p.2) callees ∧
    Lists Text.Precedes (· ∈ settings.shuffleCounters) counters ∧
    set.groupsFor .call = RuleGroup.bare .call
      (callees.map (fun p => .ofLiterals .newCallee [p.1, p.2]) ++
        counters.map fun n => .ofLiterals .shuffleArguments [n])
  /-- Targets are shuffled by each counter, then cases are removed by each counter. -/
  switch : ∃ shuffles removals, Lists Text.Precedes (· ∈ settings.shuffleCounters) shuffles ∧
    Lists Text.Precedes (· ∈ settings.caseRemovalCounters) removals ∧
    set.groupsFor .switch = RuleGroup.bare .switch
      (shuffles.map (fun n => .ofLiterals .shuffleCaseTargets [n]) ++
        removals.map fun n => .ofLiterals .removeCases [n])

namespace Standard

open Declaration (Topic)

variable {settings settings' : Settings} {t t' : Taxonomy} {groups : List RuleGroup}
  (h : Taxonomy.standard settings = .ok t)

include h

/-- The group of constants lists the offsets. -/
theorem exists_groups_constant (hgroups : t.synthesizeMatcher .arithConst = .ok groups) :
    ∃ offsets, Lists Text.Precedes (· ∈ settings.scalarConstants) offsets ∧
      groups = RuleGroup.bare .arithConst
        (offsets.map (fun k => ⟨.add, [.bare .arithConst, .bare (.literal k)]⟩) ++
          [.ofLiterals .constantValue ["0"]]) := by
  obtain ⟨offsets, hoffsets, hliterals⟩ := KindSet.exists_lists_literals settings.scalarConstants
  have hformat : t.format .arithConst = [] :=
    format_matchOnly h Operator.arithmeticValues (by decide) (by decide)
  have hshifted : t.bareOperands .arithConst .add =
      offsets.map fun k => [.arithConst, .literal k] := by
    rw [Taxonomy.bareOperands, Taxonomy.constants_of_built h, Constants.ofSettings, hliterals,
      List.map_map]
    rfl
  have hzeroed : t.bareOperands .arithConst .constantValue = [[.literal "0"]] := rfl
  refine ⟨offsets, hoffsets, ?_⟩
  rw [Taxonomy.groups_eq_bare hformat hgroups, Taxonomy.bareReplacers]
  simp [hshifted, hzeroed, Expression.ofLiterals, Function.comp_def]

/-- The group of calls lists the pairs of callees, then the counters. -/
theorem exists_groups_call (hgroups : t.synthesizeMatcher .call = .ok groups) :
    ∃ callees counters, Lists (Prod.Lex Text.Precedes Text.Precedes)
        (fun p => p.1 ∈ settings.calleeNames ∧ p.2 ∈ settings.calleeNames ∧ p.1 ≠ p.2) callees ∧
      Lists Text.Precedes (· ∈ settings.shuffleCounters) counters ∧
      groups = RuleGroup.bare .call
        (callees.map (fun p => .ofLiterals .newCallee [p.1, p.2]) ++
          counters.map fun n => .ofLiterals .shuffleArguments [n]) := by
  obtain ⟨names, hnames, hcallees⟩ := KindSet.exists_lists_literals settings.calleeNames
  obtain ⟨counters, hcounters, hliterals⟩ :=
    KindSet.exists_lists_literals settings.shuffleCounters
  have hformat : t.format .call = [] := format_matchOnly h [.call, .switch] (by decide) (by decide)
  have hexchanged : t.bareOperands .call .newCallee =
      (names.flatMap fun a => (names.filter (· != a)).map fun b => (a, b)).map
        fun p => [.literal p.1, .literal p.2] := by
    rw [Taxonomy.bareOperands, Taxonomy.constants_of_built h, Constants.ofSettings, hcallees]
    simp [List.flatMap_map, List.map_flatMap, List.filter_map, Function.comp_def, bne,
      Kind.literal_beq]
  have hshuffled : t.bareOperands .call .shuffleArguments = counters.map fun n => [.literal n] := by
    rw [Taxonomy.bareOperands, Taxonomy.constants_of_built h, Constants.ofSettings, hliterals,
      List.map_map]
    rfl
  have hremoved : ∀ removal ∈ [Operator.deleteStatement, .trapStatement],
      t.bareOperands .call removal = [] := by simp [Taxonomy.bareOperands]
  refine ⟨_, counters, hnames.pairs, hcounters, ?_⟩
  rw [Taxonomy.groups_eq_bare hformat hgroups, Taxonomy.bareReplacers_of_ne (by decide),
    replacers_call h]
  simp [hexchanged, hshuffled, hremoved, Expression.ofLiterals, Function.comp_def]

/-- The group of switches lists the counters of shuffled targets, then those of removed cases. -/
theorem exists_groups_switch (hgroups : t.synthesizeMatcher .switch = .ok groups) :
    ∃ shuffles removals, Lists Text.Precedes (· ∈ settings.shuffleCounters) shuffles ∧
      Lists Text.Precedes (· ∈ settings.caseRemovalCounters) removals ∧
      groups = RuleGroup.bare .switch
        (shuffles.map (fun n => .ofLiterals .shuffleCaseTargets [n]) ++
          removals.map fun n => .ofLiterals .removeCases [n]) := by
  obtain ⟨shuffles, hshuffles, hliterals⟩ :=
    KindSet.exists_lists_literals settings.shuffleCounters
  obtain ⟨removals, hremovals, hliterals'⟩ :=
    KindSet.exists_lists_literals settings.caseRemovalCounters
  have hformat : t.format .switch = [] :=
    format_matchOnly h [.call, .switch] (by decide) (by decide)
  have hshuffled : t.bareOperands .switch .shuffleCaseTargets =
      shuffles.map fun n => [.literal n] := by
    rw [Taxonomy.bareOperands, Taxonomy.constants_of_built h, Constants.ofSettings, hliterals,
      List.map_map]
    rfl
  have hfewer : t.bareOperands .switch .removeCases = removals.map fun n => [.literal n] := by
    rw [Taxonomy.bareOperands, Taxonomy.constants_of_built h, Constants.ofSettings, hliterals',
      List.map_map]
    rfl
  have hremoved : ∀ removal ∈ [Operator.deleteStatement, .trapStatement],
      t.bareOperands .switch removal = [] := by simp [Taxonomy.bareOperands]
  refine ⟨shuffles, removals, hshuffles, hremovals, ?_⟩
  rw [Taxonomy.groups_eq_bare hformat hgroups, Taxonomy.bareReplacers_of_ne (by decide),
    replacers_switch h]
  simp [hshuffled, hfewer, hremoved, Expression.ofLiterals, Function.comp_def]

/-- A standard rule set holds the literals of its settings. -/
theorem holdsLiterals {set : RuleSet} (hset : t.synthesize = .ok set) :
    set.HoldsLiterals settings := by
  have hmatchers : ∀ m ∈ [Operator.arithConst, .call, .switch], m ∈ t.matchers := by
    have hall : ∀ m ∈ [Operator.arithConst, .call, .switch],
        ∃ table ∈ Topic.table.statements replacements, m ∈ table.1 := by decide
    exact fun m hm => (mem_matchers_iff h).2 (hall m hm)
  simp only [List.forall_mem_cons] at hmatchers
  obtain ⟨hconstant, hcall, hswitch, _⟩ := hmatchers
  constructor
  · obtain ⟨groups, hgroups⟩ := exists_groups h hconstant
    rw [Taxonomy.groupsFor_eq_of_ok hset hconstant hgroups]
    exact exists_groups_constant h hgroups
  · obtain ⟨groups, hgroups⟩ := exists_groups h hcall
    rw [Taxonomy.groupsFor_eq_of_ok hset hcall hgroups]
    exact exists_groups_call h hgroups
  · obtain ⟨groups, hgroups⟩ := exists_groups h hswitch
    rw [Taxonomy.groupsFor_eq_of_ok hset hswitch hgroups]
    exact exists_groups_switch h hgroups

/-- The groups of other matchers are the same for all settings. -/
theorem groupsFor_eq_of_not_mem (h' : Taxonomy.standard settings' = .ok t') {set set' : RuleSet}
    (hset : t.synthesize = .ok set) (hset' : t'.synthesize = .ok set') {matcher : Operator}
    (hm : matcher ∉ [Operator.arithConst, .call, .switch]) :
    set.groupsFor matcher = set'.groupsFor matcher := by
  rw [Taxonomy.groupsFor_eq hset, Taxonomy.groupsFor_eq hset', matchers_eq h h']
  by_cases hmatcher : matcher ∈ t'.matchers
  · rw [if_pos hmatcher, if_pos hmatcher, synthesizeMatcher_eq h h' (matchers_eq h h' ▸ hmatcher)
      (Taxonomy.bareOperands_eq_of_not_mem hm)]
  · rw [if_neg hmatcher, if_neg hmatcher]

/-- A constant value may be an offset of the settings, zero or one. -/
theorem mem_format_constantValue : ∃ slot, t.format .constantValue = [slot] ∧
    ∀ kind, kind ∈ slot ↔ ∃ text, .literal text = kind ∧
      (text ∈ settings.scalarConstants ∨ text ∈ ["0", "1"]) := by
  refine ⟨_, format_constantValue h, fun kind => ?_⟩
  have hzero : kind ∈ KindSet.single Constants.zero ↔ Kind.literal "0" = kind := by
    rw [KindSet.single, OrderedSet.mem_ofList, List.mem_singleton]
    exact eq_comm
  rw [OrderedSet.mem_union, OrderedSet.mem_union, hzero, Constants.booleans,
    KindSet.mem_literals, KindSet.mem_literals]
  constructor
  · rintro ((⟨text, ht, rfl⟩ | rfl) | ⟨text, ht, rfl⟩)
    · exact ⟨text, rfl, Or.inl ht⟩
    · exact ⟨"0", rfl, Or.inr (by simp)⟩
    · exact ⟨text, rfl, Or.inr ht⟩
  · rintro ⟨text, rfl, ht | ht⟩
    · exact Or.inl (Or.inl ⟨text, ht, rfl⟩)
    · exact Or.inr ⟨text, ht, rfl⟩

end Standard

/-- The literals of accepted settings stand in the rules of constants, calls and switches only, and
there as listed; other matchers have the groups that they have by default, although a constant value
may be any offset. No group is without rules. -/
theorem literals_confined (settings : Settings) (hv : settings.validate = .ok ()) :
    ∃ t set t₀ set₀, Taxonomy.standard settings = .ok t ∧ t.synthesize = .ok set ∧
      Taxonomy.standard {} = .ok t₀ ∧ t₀.synthesize = .ok set₀ ∧
      set.HoldsLiterals settings ∧
      (∀ matcher, matcher ∉ [Operator.arithConst, .call, .switch] →
        set.groupsFor matcher = set₀.groupsFor matcher) ∧
      (∀ g ∈ set.groups, g.rules ≠ []) ∧
      ∃ slot, t.format .constantValue = [slot] ∧ ∀ kind, kind ∈ slot ↔
        ∃ text, .literal text = kind ∧ (text ∈ settings.scalarConstants ∨ text ∈ ["0", "1"]) := by
  obtain ⟨t, set, ht, hset, _⟩ := Settings.synthesizes_of_validate hv
  obtain ⟨t₀, set₀, ht₀, hset₀, _⟩ := Settings.synthesizes_of_validate Settings.validate_default
  refine ⟨t, set, t₀, set₀, ht, hset, ht₀, hset₀, Standard.holdsLiterals ht hset, ?_, ?_,
    Standard.mem_format_constantValue ht⟩
  · intro matcher hm
    exact Standard.groupsFor_eq_of_not_mem ht ht₀ hset hset₀ hm
  · intro g hg
    obtain ⟨_, _, _, _, _, hgrouping, hmem⟩ := Taxonomy.exists_grouping_of_mem hset hg
    exact hgrouping.rules_ne_nil hmem

/-- Unusual literals too stand in these rules only: a constant is shifted by each of them once. -/
theorem unusualLiterals_confined : unusualSettings.validate = .ok () ∧
    ∃ t set t₀ set₀, Taxonomy.standard unusualSettings = .ok t ∧ t.synthesize = .ok set ∧
      Taxonomy.standard {} = .ok t₀ ∧ t₀.synthesize = .ok set₀ ∧
      set.HoldsLiterals unusualSettings ∧
      (∀ matcher, matcher ∉ [Operator.arithConst, .call, .switch] →
        set.groupsFor matcher = set₀.groupsFor matcher) ∧
      (∀ g ∈ set.groups, g.rules ≠ []) ∧
      (∃ slot, t.format .constantValue = [slot] ∧ ∀ kind, kind ∈ slot ↔ ∃ text,
        .literal text = kind ∧ (text ∈ unusualSettings.scalarConstants ∨ text ∈ ["0", "1"])) ∧
      set.groupsFor .arithConst = RuleGroup.bare .arithConst
        (["0", "ADD", "V1"].map (fun k => ⟨.add, [.bare .arithConst, .bare (.literal k)]⟩) ++
          [.ofLiterals .constantValue ["0"]]) := by
  have hv : unusualSettings.validate = .ok () := by decide
  obtain ⟨t, set, t₀, set₀, ht, hset, ht₀, hset₀, hholds, hsame, hrules, hformat⟩ :=
    literals_confined unusualSettings hv
  obtain ⟨offsets, hoffsets, hconstant⟩ := hholds.constant
  have hordered : ["0", "ADD", "V1"].Pairwise fun a b => compare a b = .lt := by decide
  have hlisted : Lists Text.Precedes (· ∈ unusualSettings.scalarConstants) ["0", "ADD", "V1"] :=
    ⟨hordered.imp Text.compare_eq_lt_iff.1, by simp [unusualSettings, or_left_comm, or_comm]⟩
  rw [hoffsets.eq_of_precedes hlisted] at hconstant
  exact ⟨hv, t, set, t₀, set₀, ht, hset, ht₀, hset₀, hholds, hsame, hrules, hformat, hconstant⟩

end MutationRules
