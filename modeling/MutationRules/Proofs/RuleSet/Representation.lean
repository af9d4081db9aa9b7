import MutationRules.Proofs.RuleSet.Filing
import MutationRules.Proofs.Text.Order

/-!
# Representation of rule sets

The groups of a rule set come matcher by matcher, and under each matcher in the order of
their key texts. Keys of one text may be merged in one group while rules arise, but the
text of a key tells its matcher; so no two groups have one text, and a name finds its rule
together with the key of the rule's group.
-/

namespace MutationRules

namespace RuleGroup

/-- Whether a group comes before another: its matcher is declared earlier, or the text of its key
comes before under one matcher. -/
def Precedes (g g' : RuleGroup) : Prop :=
  g.key.operator.index < g'.key.operator.index ∨
    g.key.operator = g'.key.operator ∧ Text.Precedes g.key.text g'.key.text

/-- Groups in order have different key texts, whatever their matchers. -/
theorem Precedes.text_ne {g g' : RuleGroup} (h : Precedes g g') : g.key.text ≠ g'.key.text := by
  intro htext
  rcases h with hlt | ⟨_, hlt⟩
  · rw [Expression.operator_eq_of_text_eq htext] at hlt
    exact absurd hlt (Nat.lt_irrefl _)
  · rw [htext] at hlt
    exact Text.not_precedes_of_precedes hlt hlt

end RuleGroup

namespace RuleSet

/-- What the rule set of a taxonomy keeps. -/
structure IsWellFormed (t : Taxonomy) (set : RuleSet) : Prop where
  /-- The groups are in order. -/
  ordered : set.groups.Pairwise RuleGroup.Precedes
  /-- No two groups have one key text. -/
  distinct : (set.groups.map fun g => g.key.text).Nodup
  /-- Every group has a rule. -/
  filled : ∀ g ∈ set.groups, g.rules ≠ []
  /-- Every key is one of its matcher's format. -/
  keyed : ∀ g ∈ set.groups, (t.format g.key.operator).IsKey g.key.operands
  /-- Every rule is named for its replacement under the key of its group. -/
  named : ∀ g ∈ set.groups, ∀ rule ∈ g.rules,
    rule.name = RuleName.encode ⟨g.key, rule.replacement⟩
  /-- No two rules have one name. -/
  unique : set.names.Nodup
  /-- Every rule is found by its name, with the key of its group. -/
  found : ∀ g ∈ set.groups, ∀ rule ∈ g.rules, set.find? rule.name = some (g.key, rule)

variable {set : RuleSet}

/-- Where no two rules have one name, a name finds the rule that has it. -/
theorem find?_eq_some_of_mem (hnames : set.names.Nodup) {g : RuleGroup} (hg : g ∈ set.groups)
    {rule : Rule} (hrule : rule ∈ g.rules) : set.find? rule.name = some (g.key, rule) := by
  have hmem : (g.key, rule) ∈ set.rules :=
    List.mem_flatMap.2 ⟨g, hg, List.mem_map_of_mem hrule⟩
  obtain ⟨entry, hentry⟩ : ∃ entry, set.find? rule.name = some entry :=
    Option.isSome_iff_exists.1 (List.find?_isSome.2 ⟨_, hmem, by simp⟩)
  have hname : entry.2.name = rule.name := by simpa using List.find?_some hentry
  have hsame := List.inj_on_of_nodup_map hnames (List.mem_of_find?_eq_some hentry) hmem hname
  rw [hentry, hsame]

end RuleSet

namespace Taxonomy

variable {t : Taxonomy} {matcher : Operator}

/-- The key of every binding is one of the matcher's format. -/
theorem isKey_of_mem_bindings {bs : List Binding} (hbs : t.bindings matcher = .ok bs) {b : Binding}
    (hb : b ∈ bs) : (t.format matcher).IsKey b.key.operands := by
  by_cases hformat : t.format matcher = []
  · obtain ⟨_, _, _, _, rfl⟩ := (mem_bindings_iff_of_format_eq_nil hformat hbs).1 hb
    rw [hformat]
    exact ⟨rfl, by simp [bareBinding]⟩
  · obtain ⟨_, henum⟩ := enumerates_of_bindings hformat hbs
    obtain ⟨_, _, _, _, hbound⟩ := henum.exists_boundAt hb
    exact hbound.isKey

/-- The groups of one matcher are in order. -/
theorem pairwise_precedes_of_synthesizeMatcher {groups : List RuleGroup}
    (h : t.synthesizeMatcher matcher = .ok groups) : groups.Pairwise RuleGroup.Precedes := by
  obtain ⟨bs, _, _, hgroups⟩ := synthesizeMatcher_eq_ok_iff.1 h
  have hincreasing := (RuleGroup.isGrouping_collect bs).increasing
  rw [← hgroups, Increasing, List.pairwise_map] at hincreasing
  refine hincreasing.imp_of_mem fun hg hg' hlt => Or.inr ⟨?_, Text.compare_eq_lt_iff.1 hlt⟩
  rw [key_operator_of_mem_groups h hg, key_operator_of_mem_groups h hg']

/-- The groups of all matchers in turn are in order. -/
theorem pairwise_precedes_of_synthesize {set : RuleSet} (h : t.synthesize = .ok set) :
    set.groups.Pairwise RuleGroup.Precedes := by
  obtain ⟨parts, hparts, rfl, _⟩ := synthesize_eq_ok_iff.1 h
  rw [List.pairwise_flatten]
  constructor
  · intro groups hgroups
    obtain ⟨m, _, hm⟩ := exists_mem_of_forall₂ hparts.flip hgroups
    exact pairwise_precedes_of_synthesizeMatcher hm
  · refine pairwise_of_forall₂ hparts t.increasing_matchers ?_
    intro m groups m' groups' hm hm' hlt g hg g' hg'
    left
    rw [key_operator_of_mem_groups hm hg, key_operator_of_mem_groups hm' hg']
    exact Operator.compare_eq_lt_iff.1 hlt

/-- Every rule set that is synthesized is well formed, whatever the formats and literals of the
taxonomy. -/
theorem isWellFormed_of_synthesize (t : Taxonomy) {set : RuleSet} (h : t.synthesize = .ok set) :
    set.IsWellFormed t := by
  obtain ⟨_, _, _, hnames⟩ := synthesize_eq_ok_iff.1 h
  have hordered := pairwise_precedes_of_synthesize h
  refine {
    ordered := hordered
    distinct := List.pairwise_map.2 (hordered.imp RuleGroup.Precedes.text_ne)
    filled := fun g hg => ?_
    keyed := fun g hg => ?_
    named := fun g hg rule hrule => ?_
    unique := hnames
    found := fun g hg rule hrule => RuleSet.find?_eq_some_of_mem hnames hg hrule }
  all_goals obtain ⟨m, _, bs, groups, hbs, hgrouping, hmem⟩ := exists_grouping_of_mem h hg
  · exact hgrouping.rules_ne_nil hmem
  · obtain ⟨b, hb, hkey⟩ := hgrouping.exists_key hmem
    rw [← hkey, key_operator_of_mem_bindings hbs hb]
    exact isKey_of_mem_bindings hbs hb
  · exact hgrouping.name_eq hmem hrule

/-- The default rule set is well formed. -/
theorem default_isWellFormed : ∃ t set, standard {} = .ok t ∧ t.synthesize = .ok set ∧
    set.IsWellFormed t := by
  obtain ⟨t, set, ht, hset, _⟩ := Settings.synthesizes_of_validate Settings.validate_default
  exact ⟨t, set, ht, hset, isWellFormed_of_synthesize t hset⟩

end Taxonomy

end MutationRules
