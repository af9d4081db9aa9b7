import MutationRules.Proofs.RuleSet.Influence

/-!
# Rules of a larger table

A taxonomy is extended by allowing more replacements and changing nothing else. The bindings
of a matcher are then those of the larger taxonomy whose replacements the smaller one allows,
in the same order. So the rules under each text of a key are some of those in the extension,
and the others have replacements that are newly allowed.
-/

namespace MutationRules

/-- What is picked from joined lists, if it is picked or left list by list. -/
theorem filter_flatMap_of_forall {α β : Type} {f : α → List β} {p : α → Bool} {q : β → Bool}
    {xs : List α} (h : ∀ x ∈ xs, ∀ y ∈ f x, q y = p x) :
    (xs.flatMap f).filter q = (xs.filter p).flatMap f := by
  induction xs with
  | nil => rfl
  | cons x rest ih =>
    obtain ⟨hx, hrest⟩ := List.forall_mem_cons.1 h
    rw [List.flatMap_cons, List.filter_append, ih hrest]
    cases hp : p x with
    | true =>
      rw [List.filter_eq_self.2 fun y hy => (hx y hy).trans hp, List.filter_cons_of_pos hp,
        List.flatMap_cons]
    | false =>
      have hnone : (f x).filter q = [] :=
        List.filter_eq_nil_iff.2 fun y hy => by simp [hx y hy, hp]
      rw [hnone, List.filter_cons_of_neg (by simp [hp]), List.nil_append]

/-! ## Rules under a text -/

/-- The rules of the groups whose keys have a text. -/
def RuleGroup.rulesAt (groups : List RuleGroup) (text : String) : List Rule :=
  (groups.filter fun g => g.key.text = text).flatMap RuleGroup.rules

/-- Under a text stand the rules of the bindings whose keys have it, in their order. -/
theorem IsGrouping.rulesAt_eq {bindings : List Binding} {groups : List RuleGroup}
    (h : IsGrouping bindings groups) (text : String) :
    RuleGroup.rulesAt groups text =
      (bindings.filter fun b => b.key.text = text).map Rule.ofBinding := by
  by_cases hm : text ∈ groups.map fun g => g.key.text
  · have hone : (groups.filter fun g => g.key.text = text).length = 1 := by
      have hcount := List.count_eq_one_of_mem h.increasing.nodup hm
      rw [List.count, List.countP_map, List.countP_eq_length_filter] at hcount
      simpa [Function.comp_def, beq_eq_decide] using hcount
    obtain ⟨g, hg⟩ := List.length_eq_one_iff.1 hone
    obtain ⟨hmem, htext⟩ : g ∈ groups ∧ g.key.text = text := by
      have hfilter : g ∈ groups.filter fun g => g.key.text = text := hg ▸ List.mem_singleton_self g
      simpa using hfilter
    rw [RuleGroup.rulesAt, hg, List.flatMap_singleton, h.rules_eq g hmem, htext]
  · have hgroups : groups.filter (fun g => g.key.text = text) = [] := by
      simpa [List.filter_eq_nil_iff] using hm
    have hbindings : bindings.filter (fun b => b.key.text = text) = [] := by
      rw [h.mem_texts] at hm
      simpa [List.filter_eq_nil_iff] using hm
    rw [RuleGroup.rulesAt, hgroups, hbindings]
    rfl

namespace Taxonomy

/-- The table allows the replacements of all rules. -/
theorem allows_of_mem_rulesAt {t : Taxonomy} {matcher : Operator} {groups : List RuleGroup}
    (h : t.synthesizeMatcher matcher = .ok groups) {text : String} {rule : Rule}
    (hr : rule ∈ RuleGroup.rulesAt groups text) :
    t.allows matcher rule.replacement.operator = true := by
  obtain ⟨bs, hbs, hallowed, rfl⟩ := synthesizeMatcher_eq_ok_iff.1 h
  rw [(RuleGroup.isGrouping_collect bs).rulesAt_eq] at hr
  obtain ⟨b, hb, rfl⟩ := List.mem_map.1 hr
  have hb := List.mem_of_mem_filter hb
  rw [← key_operator_of_mem_bindings hbs hb]
  exact hallowed b hb

/-! ## Extensions -/

/-- Whether a taxonomy is like another, except that its table may allow more replacements. -/
structure IsExtendedBy (t t' : Taxonomy) : Prop where
  /-- The operators are the same. -/
  entry : ∀ op, t.entry op = t'.entry op
  /-- The same operators are commutative. -/
  commutative : t.commutative = t'.commutative
  /-- The literals of the settings are the same. -/
  constants : t.constants = t'.constants
  /-- What is allowed stays allowed. -/
  allows : ∀ matcher replacer, t.allows matcher replacer = true → t'.allows matcher replacer = true

namespace IsExtendedBy

variable {t t' : Taxonomy} (h : t.IsExtendedBy t') {matcher replacer : Operator}

include h

theorem format (op : Operator) : t.format op = t'.format op :=
  congrArg OperatorEntry.format (h.entry op)

theorem isCommutative (op : Operator) : t.isCommutative op = t'.isCommutative op := by
  rw [Taxonomy.isCommutative, Taxonomy.isCommutative, h.commutative]

/-- The replacements of a matcher are those in the extension that are allowed. -/
theorem replacers_eq_filter (matcher : Operator) :
    t.replacers matcher = (t'.replacers matcher).filter (t.allows matcher) := by
  refine Increasing.eq_of_mem_iff (increasing_replacers t matcher)
    ((increasing_replacers t' matcher).filter _) fun op => ?_
  rw [List.mem_filter, ← allows_iff, ← allows_iff]
  exact (and_iff_right_of_imp (h.allows matcher op)).symm

/-- A replacement has the same bindings to a matcher with operands. -/
theorem filterMap_bindAt?_eq (matcher replacer : Operator) :
    (t.placements matcher replacer).filterMap (t.bindAt? matcher replacer) =
      (t'.placements matcher replacer).filterMap (t'.bindAt? matcher replacer) :=
  filterMap_bindAt?_congr (h.format matcher) (h.format replacer) (h.isCommutative replacer)

/-- A replacement has the same bindings to a matcher without operands. -/
theorem bareBindings_eq (matcher replacer : Operator) :
    t.bareBindings matcher replacer = t'.bareBindings matcher replacer := by
  have hoperands : t.bareOperands matcher replacer = t'.bareOperands matcher replacer := by
    simp only [bareOperands, h.constants]
  rw [bareBindings, bareBindings, hoperands]

/-- The bindings of a matcher with operands are those in the extension that are allowed. -/
theorem bindings_eq_filter_of_operands (hformat : t.format matcher ≠ []) {bs bs' : List Binding}
    (hbs : t.bindings matcher = .ok bs) (hbs' : t'.bindings matcher = .ok bs') :
    bs = bs'.filter fun b => t.allows matcher b.replacement.operator := by
  obtain ⟨_, rfl⟩ := (bindings_eq_ok_iff hformat).1 hbs
  obtain ⟨_, rfl⟩ := (bindings_eq_ok_iff (h.format matcher ▸ hformat)).1 hbs'
  rw [filter_flatMap_of_forall (p := t.allows matcher), ← h.replacers_eq_filter]
  · exact List.flatMap_congr fun replacer _ => h.filterMap_bindAt?_eq matcher replacer
  · intro replacer _ b hb
    obtain ⟨_, _, hb⟩ := List.mem_filterMap.1 hb
    rw [(bindAt?_eq_some_iff.1 hb).replacement_operator]

/-- The bindings of a matcher without operands are those in the extension that are allowed, if all
of them are. A constant has the same in both, since the table is not asked for them. -/
theorem bindings_eq_filter_of_bare (hformat : t.format matcher = []) {bs bs' : List Binding}
    (hbs : t.bindings matcher = .ok bs) (hbs' : t'.bindings matcher = .ok bs')
    (hallowed : ∀ b ∈ bs, t.allows matcher b.replacement.operator = true) :
    bs = bs'.filter fun b => t.allows matcher b.replacement.operator := by
  rw [bindings_eq_nullaryBindings hformat] at hbs
  rw [bindings_eq_nullaryBindings (h.format matcher ▸ hformat)] at hbs'
  obtain ⟨_, rfl⟩ := nullaryBindings_eq_ok_iff.1 hbs
  obtain ⟨_, rfl⟩ := nullaryBindings_eq_ok_iff.1 hbs'
  have hbindings := fun (xs : List Operator) =>
    List.flatMap_congr (l := xs) fun replacer _ => h.bareBindings_eq matcher replacer
  by_cases hconstant : matcher = .arithConst
  · have hreplacers : t.bareReplacers matcher = t'.bareReplacers matcher := by
      subst hconstant
      rfl
    rw [← hreplacers, ← hbindings, List.filter_eq_self.2 hallowed]
  · rw [bareReplacers_of_ne hconstant, bareReplacers_of_ne hconstant,
      filter_flatMap_of_forall (p := t.allows matcher), ← h.replacers_eq_filter]
    · exact hbindings _
    · intro replacer _ b hb
      obtain ⟨_, _, rfl⟩ := List.mem_map.1 hb
      rfl

/-- The rules under a text are those in the extension whose replacements are allowed. -/
theorem rulesAt_eq_filter {groups groups' : List RuleGroup}
    (hgroups : t.synthesizeMatcher matcher = .ok groups)
    (hgroups' : t'.synthesizeMatcher matcher = .ok groups') (text : String) :
    RuleGroup.rulesAt groups text = (RuleGroup.rulesAt groups' text).filter fun rule =>
      t.allows matcher rule.replacement.operator := by
  obtain ⟨bs, hbs, hallowed, rfl⟩ := synthesizeMatcher_eq_ok_iff.1 hgroups
  obtain ⟨bs', hbs', _, rfl⟩ := synthesizeMatcher_eq_ok_iff.1 hgroups'
  have hfilter : bs = bs'.filter fun b => t.allows matcher b.replacement.operator := by
    by_cases hformat : t.format matcher = []
    · refine h.bindings_eq_filter_of_bare hformat hbs hbs' fun b hb => ?_
      rw [← key_operator_of_mem_bindings hbs hb]
      exact hallowed b hb
    · exact h.bindings_eq_filter_of_operands hformat hbs hbs'
  rw [(RuleGroup.isGrouping_collect bs).rulesAt_eq, (RuleGroup.isGrouping_collect bs').rulesAt_eq,
    hfilter, List.filter_map, List.filter_filter, List.filter_filter]
  simp only [Function.comp_def, Rule.ofBinding, Bool.and_comm]

/-- Allowing more replacements adds rules and leaves the others as they are. Under each text of a
key, the rules of a matcher are some of those in the extension, in the same order: the ones whose
replacements were allowed before. The replacements of all others are newly allowed. -/
theorem rulesAt_monotone {groups groups' : List RuleGroup}
    (hgroups : t.synthesizeMatcher matcher = .ok groups)
    (hgroups' : t'.synthesizeMatcher matcher = .ok groups') (text : String) :
    (RuleGroup.rulesAt groups text).Sublist (RuleGroup.rulesAt groups' text) ∧
    (∀ rule ∈ RuleGroup.rulesAt groups' text, rule ∉ RuleGroup.rulesAt groups text →
      t'.allows matcher rule.replacement.operator = true ∧
        t.allows matcher rule.replacement.operator = false) ∧
    RuleGroup.rulesAt groups text = (RuleGroup.rulesAt groups' text).filter fun rule =>
      t.allows matcher rule.replacement.operator := by
  have hfilter := h.rulesAt_eq_filter hgroups hgroups' text
  refine ⟨hfilter ▸ List.filter_sublist, fun rule hrule hnew => ⟨?_, ?_⟩, hfilter⟩
  · exact allows_of_mem_rulesAt hgroups' hrule
  · rw [hfilter, List.mem_filter, not_and, Bool.not_eq_true] at hnew
    exact hnew hrule

end IsExtendedBy

/-! ## Declaring more replacements -/

/-- Clauses that only allow replacements leave the entries as they are. -/
theorem entry_ofClauses_append (clauses : List Clause) {more : List Clause}
    (hmore : ∀ c ∈ more, ∃ matcher replacers excluded, c = .replace matcher replacers excluded)
    (op : Operator) :
    (Draft.ofClauses (clauses ++ more)).entry op = (Draft.ofClauses clauses).entry op := by
  have hnone : ∀ {β : Type} {f : Clause → Option β},
      (∀ matcher replacers excluded, f (.replace matcher replacers excluded) = none) →
        ∀ cs : List Clause, cs ⊆ more → cs.findSome? f = none := by
    intro β f hf cs hcs
    refine List.findSome?_eq_none_iff.2 fun c hc => ?_
    obtain ⟨_, _, _, rfl⟩ := hmore c (hcs hc)
    exact hf _ _ _
  have hformat : (Draft.ofClauses (clauses ++ more)).formats.get? op =
      (Draft.ofClauses clauses).formats.get? op := by
    rw [Draft.get?_formats_ofClauses, Draft.get?_formats_ofClauses, List.findSome?_append,
      hnone (fun _ _ _ => rfl) more (List.Subset.refl _), Option.or_none]
  have hclassPath : (Draft.ofClauses (clauses ++ more)).classPaths.get? op =
      (Draft.ofClauses clauses).classPaths.get? op := by
    rw [Draft.get?_classPaths_ofClauses, Draft.get?_classPaths_ofClauses, List.findSome?_append,
      hnone (fun _ _ _ => rfl) more (List.Subset.refl _), Option.or_none]
  have hrole : (Draft.ofClauses (clauses ++ more)).role op = (Draft.ofClauses clauses).role op := by
    rw [Draft.role, Draft.role, Draft.get?_roles_ofClauses, Draft.get?_roles_ofClauses,
      List.reverse_append, List.findSome?_append,
      hnone (fun _ _ _ => rfl) more.reverse (List.reverse_subset.2 (List.Subset.refl _)),
      Option.none_or]
  simp only [Draft.entry, hformat, hclassPath, hrole]

variable {settings : Settings} {declarations more : List Declaration} {t t' : Taxonomy}

/-- Declaring more replacements extends a taxonomy. -/
theorem isExtendedBy_of_append (h : ofDeclarations settings declarations = .ok t)
    (h' : ofDeclarations settings (declarations ++ more) = .ok t')
    (hmore : ∀ declaration ∈ more, ∃ matchers replacers excluded,
      declaration = .replace matchers replacers excluded) : t.IsExtendedBy t' := by
  have hclauses : ∀ c ∈ more.flatMap Declaration.clauses, ∃ matcher replacers excluded,
      c = .replace matcher replacers excluded := by
    intro c hc
    obtain ⟨declaration, hd, hc⟩ := List.mem_flatMap.1 hc
    obtain ⟨matchers, replacers, excluded, rfl⟩ := hmore declaration hd
    obtain ⟨matcher, _, rfl⟩ := List.mem_map.1 hc
    exact ⟨matcher, replacers, excluded, rfl⟩
  obtain ⟨_, hentry, _, _, hcommutative, _⟩ :=
    Draft.build_eq_ok_iff.1 (ofDeclarations_eq_ok_iff.1 h).2
  obtain ⟨_, hentry', _, _, hcommutative', _⟩ :=
    Draft.build_eq_ok_iff.1 (ofDeclarations_eq_ok_iff.1 h').2
  rw [List.flatMap_append] at hcommutative'
  refine {
    entry := fun op => ?_
    commutative := ?_
    constants := (constants_of_built h).trans (constants_of_built h').symm
    allows := fun matcher replacer ha => ?_ }
  · have hsame := entry_ofClauses_append (declarations.flatMap Declaration.clauses) hclauses op
    rw [← List.flatMap_append, hentry op, hentry' op, Except.ok.injEq, Subtype.mk.injEq] at hsame
    exact hsame.symm
  · rw [hcommutative, hcommutative']
    refine OrderedSet.ext fun op => ?_
    rw [Draft.mem_commutative_ofClauses, Draft.mem_commutative_ofClauses, List.mem_append]
    refine (or_iff_left fun hc => ?_).symm
    obtain ⟨_, _, _, hreplace⟩ := hclauses _ hc
    nomatch hreplace
  · rw [allows_iff_of_built h] at ha
    obtain ⟨matchers, replacers, excluded, hd, hallowed⟩ := ha
    exact (allows_iff_of_built h').2
      ⟨matchers, replacers, excluded, List.mem_append_left _ hd, hallowed⟩

/-- Declarations that let `SUB` replace `ADD`. -/
def narrow : List Declaration := [
  .format [.add, .sub, .mul] [.arithmetic, .arithmetic],
  .format (Operator.all.filter fun op => !(op ∈ [Operator.add, .sub, .mul])) [],
  .family Operator.all ["CLASS"],
  .replace [.add] [.sub] []]

/-- Declarations that let `MUL` replace `ADD`. -/
def widening : List Declaration := [.replace [.add] [.mul] []]

/-- The matcher `ADD` has groups if its replacements are declared with it. -/
theorem exists_synthesizeMatcher_of_narrow (h : ofDeclarations {} (narrow ++ more) = .ok t)
    (hallows : ∀ replacer, t.allows .add replacer = true → replacer ∈ [Operator.sub, .mul]) :
    ∃ groups, t.synthesizeMatcher .add = .ok groups := by
  have hformat : ∀ op ∈ [Operator.add, .sub, .mul], t.format op = [.arithmetic, .arithmetic] :=
    fun op hop => (format_eq_iff_of_built h).2 ⟨_, by simp [narrow], hop⟩
  have hne : t.format .add ≠ [] := by simp [hformat]
  obtain ⟨groups, _, _, hgroups, _⟩ := exists_enumeration hne fun replacer ha => by
    rw [hformat replacer (List.mem_cons_of_mem _ (hallows replacer ha))]
    exact Nat.le_refl 2
  exact ⟨groups, hgroups⟩

/-- The rules of `ADD` for any two operands are kept if `MUL` may replace it too. -/
theorem narrow_isExtended : ∃ t t' groups groups', ofDeclarations {} narrow = .ok t ∧
    ofDeclarations {} (narrow ++ widening) = .ok t' ∧ t.IsExtendedBy t' ∧
    t.synthesizeMatcher .add = .ok groups ∧ t'.synthesizeMatcher .add = .ok groups' ∧
    (RuleGroup.rulesAt groups "ADD(@1, @2)").Sublist (RuleGroup.rulesAt groups' "ADD(@1, @2)") := by
  obtain ⟨t, ht, _, _⟩ := exists_described (show IsDescription narrow by decide +kernel)
  obtain ⟨t', ht', _, hpairs⟩ :=
    exists_described (show IsDescription (narrow ++ widening) by decide +kernel)
  have hextended : t.IsExtendedBy t' :=
    isExtendedBy_of_append ht ht' fun _ hd => ⟨_, _, _, List.mem_singleton.1 hd⟩
  have hstated : statedPairs (narrow ++ widening) = [(.add, .sub), (.add, .mul)] := rfl
  have hallows : ∀ replacer, t'.allows .add replacer = true →
      replacer ∈ [Operator.sub, .mul] := by
    intro replacer ha
    simpa [hstated] using (hpairs .add replacer).1 ha
  obtain ⟨groups, hgroups⟩ := exists_synthesizeMatcher_of_narrow
    (narrow.append_nil.symm ▸ ht) fun replacer ha => hallows replacer (hextended.allows _ _ ha)
  obtain ⟨groups', hgroups'⟩ := exists_synthesizeMatcher_of_narrow ht' hallows
  exact ⟨t, t', groups, groups', ht, ht', hextended, hgroups, hgroups',
    (hextended.rulesAt_monotone hgroups hgroups' _).1⟩

end Taxonomy

end MutationRules
