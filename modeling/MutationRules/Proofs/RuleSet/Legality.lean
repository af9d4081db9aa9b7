import MutationRules.Proofs.RuleSet.Standard

/-!
# Legality of rules

A rule is legal if the table lets its replacement stand for another operator, its matcher,
and the roles of both let them stand where they do. A taxonomy only holds legal pairs,
however it was declared, and synthesis checks every binding against the table. So rules
are legal even where the replacements of a matcher are named without the table.
-/

namespace MutationRules

namespace Taxonomy

/-- Whether an operator may stand for a matcher in a rule. -/
structure IsLegal (t : Taxonomy) (matcher replacer : Operator) : Prop where
  /-- The table has the pair. -/
  allowed : t.allows matcher replacer = true
  /-- No operator replaces itself. -/
  distinct : replacer ≠ matcher
  /-- The replacement is not only matched. -/
  replaces : t.role replacer ≠ .matchOnly
  /-- The matcher does not only replace. -/
  matched : t.role matcher ≠ .replaceOnly

variable {settings : Settings} {declarations : List Declaration} {t : Taxonomy}
  {matcher replacer : Operator}

/-- Whatever the order of the declarations, a taxonomy allows legal pairs only. -/
theorem isLegal_iff_of_built (h : ofDeclarations settings declarations = .ok t) :
    t.IsLegal matcher replacer ↔ t.allows matcher replacer = true := by
  refine ⟨IsLegal.allowed, fun ha => ?_⟩
  obtain ⟨_, _, _, _, _, _, hne, _⟩ := (allows_iff_of_built h).1 ha
  obtain ⟨hmatched, hreplaces⟩ := role_of_allows h ha
  exact ⟨ha, hne, hreplaces, hmatched⟩

/-- Every rule of a matcher is legal. -/
theorem isLegal_of_mem_rules (h : ofDeclarations settings declarations = .ok t)
    {groups : List RuleGroup} (hgroups : t.synthesizeMatcher matcher = .ok groups) :
    ∀ g ∈ groups, g.key.operator = matcher ∧
      ∀ rule ∈ g.rules, t.IsLegal matcher rule.replacement.operator := by
  intro g hg
  refine ⟨key_operator_of_mem_groups hgroups hg, fun rule hrule => ?_⟩
  obtain ⟨bs, hbs, hallowed, rfl⟩ := synthesizeMatcher_eq_ok_iff.1 hgroups
  obtain ⟨b, hb, _, rfl⟩ := ((RuleGroup.isGrouping_collect bs).mem_rules_iff hg).1 hrule
  have hallow := hallowed b hb
  rw [key_operator_of_mem_bindings hbs hb] at hallow
  exact (isLegal_iff_of_built h).2 hallow

/-- By default the shifted and the zeroed constant are legal. -/
theorem constants_isLegal : ∃ t groups, standard {} = .ok t ∧
    t.synthesizeMatcher .arithConst = .ok groups ∧
    (∃ g ∈ groups, ∃ rule ∈ g.rules, rule.replacement.operator = .constantValue) ∧
    ∀ g ∈ groups, g.key.operator = .arithConst ∧
      ∀ rule ∈ g.rules, t.IsLegal .arithConst rule.replacement.operator := by
  obtain ⟨t, ht⟩ := Standard.exists_standard Settings.validate_default
  have hmatcher : Operator.arithConst ∈ t.matchers := (Standard.mem_matchers_iff ht).2 (by decide)
  obtain ⟨groups, hgroups⟩ := Standard.exists_groups ht hmatcher
  obtain ⟨bs, hbs, _, rfl⟩ := synthesizeMatcher_eq_ok_iff.1 hgroups
  have hformat : t.format .arithConst = [] :=
    Standard.format_matchOnly ht Operator.arithmeticValues (by decide) (by decide)
  have hzero : bareBinding .arithConst .constantValue [Constants.zero] ∈ bs :=
    (mem_bindings_iff_of_format_eq_nil hformat hbs).2
      ⟨.constantValue, by simp [bareReplacers], _, List.mem_singleton_self _, rfl⟩
  obtain ⟨g, hg, _, hrule⟩ := (RuleGroup.isGrouping_collect bs).exists_group hzero
  exact ⟨t, _, ht, hgroups, ⟨g, hg, _, hrule, rfl⟩, isLegal_of_mem_rules ht hgroups⟩

end Taxonomy

end MutationRules
