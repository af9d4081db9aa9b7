import Mathlib.Data.Finset.Card
import MutationRules.Proofs.Configuration.Contents
import MutationRules.Proofs.Ordered.Tally
import MutationRules.Proofs.RuleSet.Representation
import MutationRules.Report.Generation

/-!
# One rule set in a configuration and in a report

A configuration has a line for each group, and a report counts the rules of the groups by
matcher. No group is empty and no line has an end inside, so lines, groups and counts agree;
the report ranks the matchers by their counts, and by declaration where the counts are equal.
-/

namespace MutationRules

/-- Sorting keeps what it does not tell apart in the order that it had. -/
theorem pairwise_mergeSort_of_pairwise {α : Type} {le : α → α → Bool}
    (trans : ∀ a b c, le a b → le b c → le a c) (total : ∀ a b, le a b || le b a)
    {before : α → α → Prop} {xs : List α} (h : xs.Pairwise before) :
    (xs.mergeSort le).Pairwise fun a b => le a b ∧ (le b a → before a b) := by
  induction xs with
  | nil => simp
  | cons x xs ih =>
    obtain ⟨hx, hxs⟩ := List.pairwise_cons.1 h
    -- `x` is put before everything that it may stand before
    obtain ⟨front, back, hsorted, hrest, hfront⟩ := List.mergeSort_cons trans total x xs
    have hordered := List.pairwise_mergeSort trans total (x :: xs)
    have ih := ih hxs
    rw [hsorted, List.pairwise_append, List.pairwise_cons] at hordered
    rw [hrest, List.pairwise_append] at ih
    rw [hsorted, List.pairwise_append, List.pairwise_cons]
    refine ⟨ih.1, ⟨fun b hb => ⟨hordered.2.1.1 b hb, fun _ => hx b ?_⟩, ih.2.1⟩, fun a ha => ?_⟩
    · exact List.mem_mergeSort.1 (hrest ▸ List.mem_append_right front hb)
    · refine List.forall_mem_cons.2 ⟨⟨hordered.2.2 a ha x (List.mem_cons_self ..), fun hle => ?_⟩,
        ih.2.2 a ha⟩
      have hnot := hfront a ha
      simp [hle] at hnot

namespace RuleSet

variable {set : RuleSet} {op : Operator} {count : Nat}

/-- Rules are tallied by the matchers of their groups. -/
theorem countsByMatcher_eq_tally (set : RuleSet) : set.countsByMatcher =
    OrderedMap.tally (fun g => g.key.operator) (fun g => g.rules.length) set.groups := rfl

/-- The number of rules is the sum of those of the groups. -/
theorem ruleCount_eq_sum (set : RuleSet) :
    set.ruleCount = (set.groups.map fun g => g.rules.length).sum := rfl

/-- The counts of all matchers add up to the number of rules. -/
theorem sum_countsByMatcher (set : RuleSet) :
    set.countsByMatcher.values.sum = set.ruleCount := by
  rw [OrderedMap.sum_values, countsByMatcher_eq_tally, OrderedMap.sumWhere_tally,
    List.filter_true, ruleCount_eq_sum]

/-- A matcher is counted if it has a group, and then with the rules of all its groups. -/
theorem get?_countsByMatcher_eq_some_iff : set.countsByMatcher.get? op = some count ↔
    (∃ g ∈ set.groups, g.key.operator = op) ∧
      count = (RuleSet.mk (set.groupsFor op)).ruleCount := by
  rw [countsByMatcher_eq_tally, OrderedMap.get?_tally_eq_some_iff]
  rfl

/-- As many matchers are counted as own a group. -/
theorem size_countsByMatcher (set : RuleSet) : set.countsByMatcher.size =
    (set.groups.map fun g => g.key.operator).toFinset.card := by
  have hkeys : (set.groups.map fun g => g.key.operator).toFinset =
      set.countsByMatcher.keys.toFinset := by
    ext op
    rw [List.mem_toFinset, List.mem_toFinset, OrderedMap.mem_keys_iff, Option.isSome_iff_exists]
    simp only [get?_countsByMatcher_eq_some_iff, exists_and_left, exists_eq, and_true]
    rw [List.mem_map]
  have hnodup : set.countsByMatcher.keys.Nodup := set.countsByMatcher.increasing.nodup
  rw [hkeys, List.toFinset_card_of_nodup hnodup, OrderedMap.keys, List.length_map]
  rfl

/-- A rule set with a rule counts it. -/
theorem ruleCount_pos {g : RuleGroup} (hg : g ∈ set.groups) (h : g.rules ≠ []) :
    0 < set.ruleCount := by
  obtain ⟨rule, hrule⟩ := List.exists_mem_of_ne_nil _ h
  rw [← length_rules]
  exact List.length_pos_of_mem (List.mem_flatMap.2 ⟨g, hg, List.mem_map_of_mem hrule⟩)

end RuleSet

namespace GenerationReport

/-- Whether an operator stands before another in a ranking: it has more rules, or as many and is
declared earlier. -/
def Outranks (a b : Operator × Nat) : Prop := b.2 < a.2 ∨ a.2 = b.2 ∧ a.1.index < b.1.index

/-- The busiest operators are the first ones of all that are counted, in the order of a ranking. -/
theorem exists_ranking (r : GenerationReport) :
    ∃ ranking, Lists Outranks (fun e => r.perMatcher.get? e.1 = some e.2) ranking ∧
      ranking.length = r.perMatcher.size ∧ ∀ n, r.busiest n = ranking.take n := by
  refine ⟨_, ⟨?_, fun e => ?_⟩, List.length_mergeSort _, fun n => rfl⟩
  · have hdeclared : r.perMatcher.entries.Pairwise fun a b => a.1.index < b.1.index :=
      (List.pairwise_map.1 r.perMatcher.increasing).imp Operator.compare_eq_lt_iff.1
    refine (pairwise_mergeSort_of_pairwise (fun a b c hab hbc => ?_) (fun a b => ?_)
      hdeclared).imp ?_
    · simp only [decide_eq_true_eq] at hab hbc ⊢
      exact Nat.le_trans hbc hab
    · simpa using Nat.le_total b.2 a.2
    · rintro a b ⟨hle, hbefore⟩
      simp only [decide_eq_true_eq] at hle hbefore
      rcases Nat.lt_or_eq_of_le hle with hlt | heq
      · exact Or.inl hlt
      · exact Or.inr ⟨heq.symm, hbefore (Nat.le_of_eq heq.symm)⟩
  · rw [List.mem_mergeSort, ← OrderedMap.mem_entries_iff]

variable {set : RuleSet}

/-- If no group is empty, every matcher that owns a group is one with a rule. -/
theorem matchers_ofRuleSet (h : ∀ g ∈ set.groups, g.rules ≠ []) (duration : Duration) :
    (ofRuleSet set duration).matchers = set.countsByMatcher.size := by
  have hall : ∀ count ∈ set.countsByMatcher.values, decide (0 < count) = true := by
    intro count hcount
    obtain ⟨⟨op, _⟩, hentry, rfl⟩ := List.mem_map.1 hcount
    obtain ⟨⟨g, hg, hop⟩, rfl⟩ :=
      RuleSet.get?_countsByMatcher_eq_some_iff.1 (OrderedMap.mem_entries_iff.1 hentry)
    have howned : g ∈ set.groupsFor op := List.mem_filter.2 ⟨hg, decide_eq_true hop⟩
    exact decide_eq_true (RuleSet.ruleCount_pos howned (h g hg))
  calc (ofRuleSet set duration).matchers
      = set.countsByMatcher.values.length := List.countP_eq_length.2 hall
    _ = set.countsByMatcher.size := List.length_map _

/-- In a rule set of a built taxonomy whose formats admit admissible kinds, all counts agree. The
lines of its configuration are those of its groups, each begins with the key of its group, and
nothing follows them. A report has a key for each group and all rules; the matchers that it counts
are those that own a group, and it ranks them by the rules of their groups. -/
theorem views_agree {settings : Settings} {declarations : List Declaration} {t : Taxonomy}
    (h : Taxonomy.ofDeclarations settings declarations = .ok t)
    (hformats : t.HasAdmissibleFormats) (hset : t.synthesize = .ok set) :
    ((Configuration.render false set).toList.splitOn '\n' =
        (set.groups.map fun g => (Configuration.line g).toList) ++ [[]] ∧
      ∀ g ∈ set.groups, (g.key.text ++ " -->").toList <+: (Configuration.line g).toList) ∧
    ∀ duration,
      (ofRuleSet set duration).keys = set.groups.length ∧
      (ofRuleSet set duration).total = set.ruleCount ∧
      set.ruleCount = set.countsByMatcher.values.sum ∧
      (ofRuleSet set duration).matchers =
        (set.groups.map fun g => g.key.operator).toFinset.card ∧
      ∃ ranking, Lists Outranks (fun e => (∃ g ∈ set.groups, g.key.operator = e.1) ∧
          e.2 = (RuleSet.mk (set.groupsFor e.1)).ruleCount) ranking ∧
        ∀ n, (ofRuleSet set duration).busiest n =
          ranking.take (min n (ofRuleSet set duration).matchers) := by
  have hplain : ∀ g ∈ set.groups, g.IsPlain := fun _ hg =>
    (hformats.hasAdmissibleKinds h).isPlain_of_mem_groups hset hg
  have hfilled := (t.isWellFormed_of_synthesize hset).filled
  refine ⟨⟨Configuration.splitOn_render hplain, fun g _ => ?_⟩, fun duration => ?_⟩
  · rw [Configuration.toList_line]
    exact List.prefix_append _ _
  · have hmatchers := matchers_ofRuleSet hfilled duration
    obtain ⟨ranking, hranking, hlength, hbusiest⟩ := exists_ranking (ofRuleSet set duration)
    refine ⟨rfl, RuleSet.sum_countsByMatcher set, (RuleSet.sum_countsByMatcher set).symm,
      hmatchers.trans set.size_countsByMatcher, ranking, ⟨hranking.ordered, fun e => ?_⟩,
      fun n => ?_⟩
    · rw [hranking.mem_iff]
      exact RuleSet.get?_countsByMatcher_eq_some_iff
    · have hsize : set.countsByMatcher.size = ranking.length := hlength.symm
      rw [hbusiest, hmatchers, hsize, ← List.take_eq_take_min]

/-- Settings with literals that look like the arrow and the ends of a configuration line, and with
a single callee. -/
def arrowSettings : Settings where
  scalarConstants := ["-->", ";", "-->"]
  calleeNames := ["CALL-->"]

/-- The counts of these settings agree. -/
theorem arrowSettings_agree : arrowSettings.validate = .ok () ∧
    ∃ t set, Taxonomy.standard arrowSettings = .ok t ∧ t.HasAdmissibleFormats ∧
      t.synthesize = .ok set ∧
      (Configuration.render false set).toList.splitOn '\n' =
        (set.groups.map fun g => (Configuration.line g).toList) ++ [[]] ∧
      (ofRuleSet set ⟨0⟩).total = set.ruleCount ∧
      (ofRuleSet set ⟨0⟩).matchers = (set.groups.map fun g => g.key.operator).toFinset.card := by
  have hv : arrowSettings.validate = .ok () := by decide
  obtain ⟨t, set, ht, hset, _⟩ := Settings.synthesizes_of_validate hv
  have hformats := (Standard.hasAdmissibleKinds ht).formats
  obtain ⟨⟨hlines, _⟩, hreport⟩ := views_agree ht hformats hset
  obtain ⟨_, htotal, _, hmatchers, _⟩ := hreport ⟨0⟩
  exact ⟨hv, t, set, ht, hformats, hset, hlines, htotal, hmatchers⟩

end GenerationReport

end MutationRules
