import MutationRules.Proofs.RuleSet.Naming

/-!
# Uniqueness of rule names

The rules of all matchers are gathered and their names compared. Names of one matcher
differ, and a name tells its matcher; so the comparison finds nothing in a taxonomy
with admissible kinds and few slots, whatever else it holds.
-/

namespace MutationRules

namespace RuleSet

/-- No collision is found if names differ from each other and from those seen before. -/
theorem collisionAmong?_eq_none_iff {seen : Std.HashMap String Binding}
    {entries : List (Expression × Rule)} : collisionAmong? seen entries = none ↔
      (entries.map fun entry => entry.2.name).Nodup ∧ ∀ entry ∈ entries, entry.2.name ∉ seen := by
  induction entries generalizing seen with
  | nil => simp [collisionAmong?]
  | cons entry rest ih =>
    obtain ⟨key, rule⟩ := entry
    rw [collisionAmong?, List.map_cons, List.nodup_cons, List.forall_mem_cons]
    by_cases hseen : rule.name ∈ seen
    · rw [Std.HashMap.getElem?_eq_some_getElem hseen]
      simp [hseen]
    · rw [Std.HashMap.getElem?_eq_none hseen]
      simp only [ih, Std.HashMap.mem_insert, beq_iff_eq, not_or, List.mem_map, not_exists, not_and]
      constructor
      · rintro ⟨hnodup, hrest⟩
        exact ⟨⟨fun e he h => (hrest e he).1 h.symm, hnodup⟩, hseen, fun e he => (hrest e he).2⟩
      · rintro ⟨⟨hrule, hnodup⟩, _, hrest⟩
        exact ⟨hnodup, fun e he => ⟨fun h => hrule e he h.symm, hrest e he⟩⟩

/-- No collision is found if the names of a rule set differ. -/
theorem collision?_eq_none_iff {set : RuleSet} : set.collision? = none ↔ set.names.Nodup := by
  simp [collision?, collisionAmong?_eq_none_iff, names]

theorem names_mk_flatten (parts : List (List RuleGroup)) :
    (RuleSet.mk parts.flatten).names =
      (parts.map fun groups => (RuleSet.mk groups).names).flatten := by
  induction parts with
  | nil => rfl
  | cons groups rest ih =>
    rw [List.map_cons, List.flatten_cons, List.flatten_cons, ← ih]
    simp [names, rules]

end RuleSet

namespace Taxonomy

variable {t : Taxonomy} {matcher : Operator}

/-- A taxonomy is synthesized matcher by matcher, and its names must differ. -/
theorem synthesize_eq_ok_iff {set : RuleSet} : t.synthesize = .ok set ↔
    ∃ parts, List.Forall₂ (fun m groups => t.synthesizeMatcher m = .ok groups) t.matchers parts ∧
      set = ⟨parts.flatten⟩ ∧ set.names.Nodup := by
  rw [synthesize, bind_eq_ok_iff]
  refine exists_congr fun parts => ?_
  rw [mapM_eq_ok_iff]
  refine and_congr_right fun _ => ?_
  dsimp only
  constructor
  · intro h
    split at h
    next defect hc => simp at h
    next hc =>
      obtain rfl := Except.ok.inj h
      exact ⟨rfl, RuleSet.collision?_eq_none_iff.1 hc⟩
  · rintro ⟨rfl, hnames⟩
    split
    next defect hc => simp [RuleSet.collision?_eq_none_iff.2 hnames] at hc
    next => rfl

theorem increasing_matchers (t : Taxonomy) : Increasing t.matchers := t.replacements.increasing

theorem nodup_matchers (t : Taxonomy) : t.matchers.Nodup := t.increasing_matchers.nodup

/-- The names of a matcher's groups are those of its bindings. -/
theorem exists_perm_names {groups : List RuleGroup} (h : t.synthesizeMatcher matcher = .ok groups) :
    ∃ bs, t.bindings matcher = .ok bs ∧
      (RuleSet.mk groups).names.Perm (bs.map RuleName.encode) := by
  obtain ⟨bs, hbs, _, rfl⟩ := synthesizeMatcher_eq_ok_iff.1 h
  exact ⟨bs, hbs, (RuleGroup.isGrouping_collect bs).perm_names⟩

/-- No two rules of a taxonomy with admissible kinds have one name, if slot numbers have one
digit. -/
theorem HasAdmissibleKinds.nodup_names_flatten (h : t.HasAdmissibleKinds)
    (hslots : ∀ op, (t.format op).length ≤ 9) {parts : List (List RuleGroup)}
    (hparts : List.Forall₂ (fun m groups => t.synthesizeMatcher m = .ok groups) t.matchers parts) :
    (RuleSet.mk parts.flatten).names.Nodup := by
  rw [RuleSet.names_mk_flatten, List.nodup_flatten, List.forall_mem_map, List.pairwise_map]
  constructor
  · intro groups hgroups
    obtain ⟨m, _, hm⟩ := exists_mem_of_forall₂ hparts.flip hgroups
    obtain ⟨bs, hbs, hperm⟩ := exists_perm_names hm
    exact hperm.nodup_iff.2 (h.nodup_names (hslots m) hbs)
  · refine pairwise_of_forall₂ hparts t.nodup_matchers ?_
    intro m groups m' groups' hm hm' hne name hname hname'
    obtain ⟨bs, hbs, hperm⟩ := exists_perm_names hm
    obtain ⟨bs', hbs', hperm'⟩ := exists_perm_names hm'
    obtain ⟨a, ha, rfl⟩ := List.mem_map.1 (hperm.mem_iff.1 hname)
    obtain ⟨b, hb, he⟩ := List.mem_map.1 (hperm'.mem_iff.1 hname')
    obtain ⟨hside, _⟩ := RuleName.sides_eq_of_encode_eq (h.hasPlainOperands hbs' hb)
      (h.hasPlainOperands hbs ha) he
    have hoperator : b.key.operator = a.key.operator := congrArg RuleName.Side.operator hside
    rw [key_operator_of_mem_bindings hbs ha, key_operator_of_mem_bindings hbs' hb] at hoperator
    exact hne hoperator.symm

/-- A taxonomy with admissible kinds and few slots is synthesized if each of its matchers is. -/
theorem HasAdmissibleKinds.exists_synthesize (h : t.HasAdmissibleKinds)
    (hslots : ∀ op, (t.format op).length ≤ 9)
    (hmatchers : ∀ m ∈ t.matchers, ∃ groups, t.synthesizeMatcher m = .ok groups) :
    ∃ set, t.synthesize = .ok set ∧ set.names.Nodup := by
  obtain ⟨parts, hparts⟩ := exists_forall₂ hmatchers
  have hnames := h.nodup_names_flatten hslots hparts
  exact ⟨_, synthesize_eq_ok_iff.2 ⟨parts, hparts, rfl, hnames⟩, hnames⟩

/-- A matcher without operands is synthesized if it can be expanded and the table has all that it
is replaced by, also what is named without the table. -/
theorem exists_synthesizeMatcher_iff (hformat : t.format matcher = []) :
    (∃ groups, t.synthesizeMatcher matcher = .ok groups) ↔ t.Expands matcher ∧
      ∀ replacer ∈ t.bareReplacers matcher, t.bareOperands matcher replacer ≠ [] →
        t.allows matcher replacer = true := by
  constructor
  · rintro ⟨groups, hgroups⟩
    obtain ⟨bs, hbs, hallowed, _⟩ := synthesizeMatcher_eq_ok_iff.1 hgroups
    have hexpands : t.Expands matcher :=
      (nullaryBindings_eq_ok_iff.1 (bindings_eq_nullaryBindings hformat ▸ hbs)).1
    refine ⟨hexpands, fun replacer hr hne => ?_⟩
    obtain ⟨kinds, hk⟩ := List.exists_mem_of_ne_nil _ hne
    apply hallowed (bareBinding matcher replacer kinds)
    exact (mem_bindings_iff_of_format_eq_nil hformat hbs).2 ⟨replacer, hr, kinds, hk, rfl⟩
  · rintro ⟨hexpands, hallows⟩
    have hbindings : t.bindings matcher = _ :=
      (bindings_eq_nullaryBindings hformat).trans (nullaryBindings_eq_ok_iff.2 ⟨hexpands, rfl⟩)
    refine ⟨_, synthesizeMatcher_eq_ok_iff.2 ⟨_, hbindings, fun b hb => ?_, rfl⟩⟩
    obtain ⟨replacer, hr, kinds, hk, rfl⟩ :=
      (mem_bindings_iff_of_format_eq_nil hformat hbindings).1 hb
    exact hallows replacer hr (List.ne_nil_of_mem hk)

/-! ## Groups of a rule set -/

/-- The groups of a matcher have keys of this matcher. -/
theorem key_operator_of_mem_groups {groups : List RuleGroup}
    (h : t.synthesizeMatcher matcher = .ok groups) {g : RuleGroup} (hg : g ∈ groups) :
    g.key.operator = matcher := by
  obtain ⟨bs, hbs, _, rfl⟩ := synthesizeMatcher_eq_ok_iff.1 h
  obtain ⟨a, ha, hkey⟩ := (RuleGroup.isGrouping_collect bs).exists_key hg
  exact hkey ▸ key_operator_of_mem_bindings hbs ha

/-- Every matcher of a rule set has its groups. -/
theorem exists_groups_of_synthesize {set : RuleSet} (h : t.synthesize = .ok set)
    (hm : matcher ∈ t.matchers) : ∃ groups, t.synthesizeMatcher matcher = .ok groups := by
  obtain ⟨parts, hparts, _⟩ := synthesize_eq_ok_iff.1 h
  obtain ⟨groups, _, hok⟩ := exists_mem_of_forall₂ hparts hm
  exact ⟨groups, hok⟩

/-- The groups of a rule set are those of its matchers. -/
theorem mem_groups_iff {set : RuleSet} (h : t.synthesize = .ok set) {g : RuleGroup} :
    g ∈ set.groups ↔ ∃ m ∈ t.matchers, ∃ groups, t.synthesizeMatcher m = .ok groups ∧
      g ∈ groups := by
  obtain ⟨parts, hparts, rfl, _⟩ := synthesize_eq_ok_iff.1 h
  rw [List.mem_flatten]
  constructor
  · rintro ⟨groups, hgroups, hg⟩
    obtain ⟨m, hm, hok⟩ := exists_mem_of_forall₂ hparts.flip hgroups
    exact ⟨m, hm, groups, hok, hg⟩
  · rintro ⟨m, hm, groups, hok, hg⟩
    obtain ⟨part, hpart, hok'⟩ := exists_mem_of_forall₂ hparts hm
    obtain rfl : groups = part := Except.ok.inj (hok.symm.trans hok')
    exact ⟨groups, hpart, hg⟩

/-- A rule set has the groups of its matchers in turn. -/
theorem groups_eq_flatMap {set : RuleSet} (h : t.synthesize = .ok set) :
    set.groups = t.matchers.flatMap fun m => (t.synthesizeMatcher m).toOption.getD [] := by
  obtain ⟨parts, hparts, rfl, _⟩ := synthesize_eq_ok_iff.1 h
  have heach : List.Forall₂ Eq
      (t.matchers.map fun m => (t.synthesizeMatcher m).toOption.getD []) parts := by
    rw [List.forall₂_map_left_iff]
    refine hparts.imp fun m part hpart => ?_
    rw [hpart]
    rfl
  rw [List.forall₂_eq_eq_eq] at heach
  rw [← heach, List.flatMap_def]

/-- Under a matcher stand its own groups, and none if the table has no entry for it. -/
theorem groupsFor_eq {set : RuleSet} (h : t.synthesize = .ok set) (matcher : Operator) :
    set.groupsFor matcher =
      if matcher ∈ t.matchers then (t.synthesizeMatcher matcher).toOption.getD [] else [] := by
  have howner : ∀ m, ∀ g ∈ (t.synthesizeMatcher m).toOption.getD [], g.key.operator = m := by
    intro m g hg
    cases hm : t.synthesizeMatcher m with
    | error e => simp [hm, Except.toOption] at hg
    | ok groups =>
      rw [hm] at hg
      exact key_operator_of_mem_groups hm hg
  rw [RuleSet.groupsFor, groups_eq_flatMap h, List.filter_flatMap,
    flatMap_eq_of_only t.nodup_matchers (a := matcher)]
  · rw [List.filter_eq_self.2 fun g hg => decide_eq_true (howner matcher g hg)]
  · intro m hne
    rw [List.filter_eq_nil_iff]
    intro g hg
    rw [howner m g hg]
    simpa using hne

theorem groupsFor_eq_of_ok {set : RuleSet} (h : t.synthesize = .ok set)
    (hm : matcher ∈ t.matchers) {groups : List RuleGroup}
    (hgroups : t.synthesizeMatcher matcher = .ok groups) : set.groupsFor matcher = groups := by
  rw [groupsFor_eq h, if_pos hm, hgroups]
  rfl

/-- The groups of a rule set group the bindings of a matcher each. -/
theorem exists_grouping_of_mem {set : RuleSet} (h : t.synthesize = .ok set) {g : RuleGroup}
    (hg : g ∈ set.groups) : ∃ m ∈ t.matchers, ∃ bs groups, t.bindings m = .ok bs ∧
      IsGrouping bs groups ∧ g ∈ groups := by
  obtain ⟨m, hm, groups, hok, hg⟩ := (mem_groups_iff h).1 hg
  obtain ⟨bs, hbs, _, rfl⟩ := synthesizeMatcher_eq_ok_iff.1 hok
  exact ⟨m, hm, bs, _, hbs, RuleGroup.isGrouping_collect bs, hg⟩

/-- Every binding of a matcher without operands has a rule in a group with the bare key. -/
theorem exists_rule_of_bareOperands {set : RuleSet} (h : t.synthesize = .ok set)
    (hm : matcher ∈ t.matchers) (hformat : t.format matcher = []) {replacer : Operator}
    (hr : replacer ∈ t.bareReplacers matcher) {kinds : List Kind}
    (hk : kinds ∈ t.bareOperands matcher replacer) :
    ∃ g ∈ set.groups, g.key = ⟨matcher, []⟩ ∧
      Rule.ofBinding (bareBinding matcher replacer kinds) ∈ g.rules := by
  obtain ⟨groups, hgroups⟩ := exists_groups_of_synthesize h hm
  obtain ⟨bs, hbs, _, rfl⟩ := synthesizeMatcher_eq_ok_iff.1 hgroups
  have hb : bareBinding matcher replacer kinds ∈ bs :=
    (mem_bindings_iff_of_format_eq_nil hformat hbs).2 ⟨replacer, hr, kinds, hk, rfl⟩
  have hgrouping := RuleGroup.isGrouping_collect bs
  obtain ⟨g, hg, _, hrule⟩ := hgrouping.exists_group hb
  obtain ⟨a, ha, hkey⟩ := hgrouping.exists_key hg
  obtain ⟨_, _, _, _, rfl⟩ := (mem_bindings_iff_of_format_eq_nil hformat hbs).1 ha
  exact ⟨g, (mem_groups_iff h).2 ⟨matcher, hm, _, hgroups, hg⟩, hkey.symm, hrule⟩

end Taxonomy

end MutationRules
