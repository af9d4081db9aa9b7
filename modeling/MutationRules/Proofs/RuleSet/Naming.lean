import MutationRules.Proofs.Operand.Admissible
import MutationRules.Proofs.RuleSet.Enumeration
import MutationRules.Proofs.RuleSet.Nullary

/-!
# Names of the rules of a taxonomy

If formats and settings hold admissible kinds only, all bindings have plain operands,
and the name of a rule is read as its two sides. The sides tell the bindings of a
matcher apart as long as slot numbers have one digit, so no two rules have one name.
-/

namespace MutationRules

/-! ## Plain bindings -/

/-- Whether every kind of an expression's operands is admissible. -/
def Expression.IsAdmissible (e : Expression) : Prop := ∀ o ∈ e.operands, o.kind.IsAdmissible

/-- An expression of admissible kinds has plain operands. -/
theorem Expression.IsAdmissible.hasPlainOperands {e : Expression} (h : e.IsAdmissible) :
    e.HasPlainOperands :=
  List.forall_mem_map.2 fun o ho => Operand.isPlain_text (h o ho).isPlain

namespace Taxonomy

/-- Whether every literal that a format admits is admissible. -/
def HasAdmissibleFormats (t : Taxonomy) : Prop :=
  ∀ op, ∀ candidates ∈ t.format op, ∀ kind ∈ candidates, kind.IsAdmissible

/-- Whether every literal of the formats and of the settings is admissible. -/
structure HasAdmissibleKinds (t : Taxonomy) : Prop where
  /-- The kinds of the formats are admissible. -/
  formats : t.HasAdmissibleFormats
  /-- The literals of the settings are admissible. -/
  constants : ∀ kind, t.constants.Holds kind → kind.IsAdmissible

variable {t : Taxonomy} {matcher replacer : Operator}

/-- Declarations add no literals to those of the settings, which are admissible. -/
theorem HasAdmissibleFormats.hasAdmissibleKinds (hf : t.HasAdmissibleFormats)
    {settings : Settings} {declarations : List Declaration}
    (h : ofDeclarations settings declarations = .ok t) : t.HasAdmissibleKinds where
  formats := hf
  constants := by
    intro kind hk
    rw [constants_of_built h] at hk
    exact Constants.isAdmissible_of_holds (ofDeclarations_eq_ok_iff.1 h).1 hk

/-- A binding is one at a fitting placement or one with bare operands. -/
theorem cases_of_mem_bindings {bs : List Binding} (h : t.bindings matcher = .ok bs) {b : Binding}
    (hb : b ∈ bs) :
    (∃ replacer placement, t.Fits matcher replacer placement ∧
      t.BoundAt matcher replacer placement b) ∨
      ∃ replacer, ∃ kinds ∈ t.bareOperands matcher replacer,
        b = bareBinding matcher replacer kinds := by
  by_cases hformat : t.format matcher = []
  · right
    obtain ⟨replacer, _, kinds, hkinds, rfl⟩ :=
      (mem_bindings_iff_of_format_eq_nil hformat h).1 hb
    exact ⟨replacer, kinds, hkinds, rfl⟩
  · left
    obtain ⟨placed, henum⟩ := enumerates_of_bindings hformat h
    obtain ⟨replacer, placement, _, hfits, hbound⟩ := henum.exists_boundAt hb
    exact ⟨replacer, placement, hfits, hbound⟩

theorem key_operator_of_mem_bindings {bs : List Binding} (h : t.bindings matcher = .ok bs)
    {b : Binding} (hb : b ∈ bs) : b.key.operator = matcher := by
  rcases cases_of_mem_bindings h hb with ⟨_, _, _, hbound⟩ | ⟨_, _, _, rfl⟩
  · exact hbound.key_operator
  · rfl

/-- Bare operands are admissible. -/
theorem HasAdmissibleKinds.of_mem_bareOperands (h : t.HasAdmissibleKinds) {kinds : List Kind}
    (hk : kinds ∈ t.bareOperands matcher replacer) : ∀ kind ∈ kinds, kind.IsAdmissible := by
  intro kind hkind
  rcases mem_of_mem_bareOperands hk hkind with hc | rfl | hsupplied
  · exact Kind.isAdmissible_of_mem_categories hc
  · exact Constants.isAdmissible_zero
  · exact h.constants kind hsupplied.holds

/-- The operands that an admissible format admits are of admissible kinds. -/
theorem HasAdmissibleKinds.of_admits (h : t.HasAdmissibleKinds) {operand : Operand}
    (ho : (t.format matcher).Admits operand) : operand.kind.IsAdmissible := by
  obtain ⟨position, candidates, kind, hc, hk, rfl⟩ := ho
  exact h.formats matcher candidates (List.mem_of_getElem? hc) kind hk

/-- A binding at a placement has plain operands. -/
theorem HasAdmissibleKinds.of_boundAt (h : t.HasAdmissibleKinds) {placement : Placement}
    {b : Binding} (hb : t.BoundAt matcher replacer placement b) : b.HasPlainOperands := by
  have hkey : b.key.IsAdmissible := fun o ho => h.of_admits (hb.admits_key o ho)
  have hreplacement : b.replacement.IsAdmissible := fun o ho =>
    h.of_admits (hb.admits_replacement o ho)
  exact ⟨hkey.hasPlainOperands, hreplacement.hasPlainOperands⟩

/-- A binding with bare operands has plain operands. -/
theorem HasAdmissibleKinds.of_bareBinding (h : t.HasAdmissibleKinds) {kinds : List Kind}
    (hk : kinds ∈ t.bareOperands matcher replacer) :
    (bareBinding matcher replacer kinds).HasPlainOperands := by
  have hkey : (bareBinding matcher replacer kinds).key.IsAdmissible := fun o ho => nomatch ho
  have hreplacement : (bareBinding matcher replacer kinds).replacement.IsAdmissible :=
    List.forall_mem_map.2 (h.of_mem_bareOperands hk)
  exact ⟨hkey.hasPlainOperands, hreplacement.hasPlainOperands⟩

/-- The bindings of a taxonomy with admissible kinds have plain operands. -/
theorem HasAdmissibleKinds.hasPlainOperands (h : t.HasAdmissibleKinds) {bs : List Binding}
    (hbs : t.bindings matcher = .ok bs) {b : Binding} (hb : b ∈ bs) : b.HasPlainOperands := by
  rcases cases_of_mem_bindings hbs hb with ⟨_, _, _, hbound⟩ | ⟨_, _, hkinds, rfl⟩
  · exact h.of_boundAt hbound
  · exact h.of_bareBinding hkinds

/-- The name of a rule is read as the key of its group and the replacement. -/
theorem HasAdmissibleKinds.decode_name (h : t.HasAdmissibleKinds) {groups : List RuleGroup}
    (hgroups : t.synthesizeMatcher matcher = .ok groups) {g : RuleGroup} (hg : g ∈ groups)
    {rule : Rule} (hr : rule ∈ g.rules) :
    RuleName.decode rule.name = .ok ⟨g.key.side, rule.replacement.side⟩ := by
  obtain ⟨bs, hbs, _, rfl⟩ := synthesizeMatcher_eq_ok_iff.1 hgroups
  have hgrouping := RuleGroup.isGrouping_collect bs
  obtain ⟨a, ha, hkey⟩ := hgrouping.exists_key hg
  obtain ⟨b, hb, _, rfl⟩ := (hgrouping.mem_rules_iff hg).1 hr
  have hplain : Binding.HasPlainOperands ⟨g.key, b.replacement⟩ :=
    ⟨hkey ▸ (h.hasPlainOperands hbs ha).key, (h.hasPlainOperands hbs hb).replacement⟩
  rw [hgrouping.name_eq hg hr]
  exact RuleName.decode_encode_of_plain hplain

/-! ## Names of one matcher -/

/-- The replacement of a binding tells where it is placed, if slot numbers have one digit. -/
theorem BoundAt.placement_eq {p q : Placement} {a b : Binding}
    (ha : t.BoundAt matcher replacer p a) (hb : t.BoundAt matcher replacer q b)
    (hslots : (t.format matcher).length ≤ 9) (h : a.replacement.side = b.replacement.side) :
    p = q := by
  have hposition : ∀ {left right : KindSet} {i j : Nat} {k k' : Kind},
      resolveAt (t.format matcher) left i = some k →
      resolveAt (t.format matcher) right j = some k' →
        (Operand.atSlot k i).text = (Operand.atSlot k' j).text → i = j := by
    intro left right i j k k' hk hk' htext
    have hi := lt_length_of_resolveAt hk
    have hj := lt_length_of_resolveAt hk'
    exact Operand.position_eq_of_text_eq (by omega) (by omega) htext
  have htexts := congrArg RuleName.Side.operands h
  cases ha with
  | whole hf hkey =>
    cases hb with
    | whole hf' hkey' => rfl
    | slot hf' hkind hkey' => simp [Expression.side] at htexts
    | pair hf' hleft hright hkey' => simp [Expression.side] at htexts
  | slot hf hkind hkey =>
    cases hb with
    | whole hf' hkey' => simp [Expression.side] at htexts
    | slot hf' hkind' hkey' =>
      have ht := (List.cons.inj htexts).1
      rw [hposition hkind hkind' ht]
    | pair hf' hleft hright hkey' => simp [Expression.side] at htexts
  | pair hf hleft hright hkey =>
    cases hb with
    | whole hf' hkey' => simp [Expression.side] at htexts
    | slot hf' hkind hkey' => simp [Expression.side] at htexts
    | pair hf' hleft' hright' hkey' =>
      obtain ⟨hl, hrest⟩ := List.cons.inj htexts
      obtain ⟨hr, _⟩ := List.cons.inj hrest
      rw [hposition hleft hleft' hl, hposition hright hright' hr]

/-- The names of the bindings of a matcher with operands differ. -/
theorem Enumerates.nodup_names {placed : List (Operator × Placement)} {bs : List Binding}
    (henum : t.Enumerates matcher placed bs) (h : t.HasAdmissibleKinds)
    (hslots : (t.format matcher).length ≤ 9) : (bs.map RuleName.encode).Nodup := by
  refine List.pairwise_map.2 (pairwise_of_forall₂ henum.bound henum.ordered ?_)
  rintro ⟨r, p⟩ a ⟨r', q⟩ b ha hb hbefore hname
  obtain ⟨_, hside⟩ :=
    RuleName.sides_eq_of_encode_eq (h.of_boundAt ha) (h.of_boundAt hb) hname
  have hoperator : a.replacement.operator = b.replacement.operator :=
    congrArg RuleName.Side.operator hside
  obtain rfl : r = r' :=
    ha.replacement_operator.symm.trans (hoperator.trans hb.replacement_operator)
  obtain rfl := ha.placement_eq hb hslots hside
  exact Placement.not_precedes_self _ hbefore

/-- The names of the bindings of a matcher without operands differ. -/
theorem HasAdmissibleKinds.nodup_names_bare (h : t.HasAdmissibleKinds) :
    (((t.bareReplacers matcher).flatMap (t.bareBindings matcher)).map RuleName.encode).Nodup := by
  have hmem : ∀ {b : Binding}, b ∈ (t.bareReplacers matcher).flatMap (t.bareBindings matcher) →
      ∃ replacer, ∃ kinds ∈ t.bareOperands matcher replacer,
        bareBinding matcher replacer kinds = b := by
    intro b hb
    obtain ⟨replacer, _, hb⟩ := List.mem_flatMap.1 hb
    exact ⟨replacer, List.mem_map.1 hb⟩
  refine List.Nodup.map_on (fun a ha b hb hname => ?_) (List.nodup_flatMap.2 ⟨?_, ?_⟩)
  · obtain ⟨r, ks, hks, rfl⟩ := hmem ha
    obtain ⟨r', ks', hks', rfl⟩ := hmem hb
    obtain ⟨_, hside⟩ :=
      RuleName.sides_eq_of_encode_eq (h.of_bareBinding hks) (h.of_bareBinding hks') hname
    obtain rfl : r = r' := congrArg RuleName.Side.operator hside
    have htokens := congrArg RuleName.Side.operands hside
    simp only [Expression.side, bareBinding, List.map_map, Function.comp_def,
      Operand.text_bare] at htokens
    rw [Kind.eq_of_map_token_eq (h.of_mem_bareOperands hks) (h.of_mem_bareOperands hks') htokens]
  · intro replacer _
    exact (nodup_bareOperands t matcher replacer).map (bareBinding_injective matcher replacer)
  · refine (nodup_bareReplacers t matcher).imp fun hne => ?_
    intro b hb hb'
    obtain ⟨_, _, rfl⟩ := List.mem_map.1 hb
    obtain ⟨_, _, he⟩ := List.mem_map.1 hb'
    exact hne (congrArg (fun b => b.replacement.operator) he).symm

/-- The names of the bindings of a matcher differ. -/
theorem HasAdmissibleKinds.nodup_names (h : t.HasAdmissibleKinds)
    (hslots : (t.format matcher).length ≤ 9) {bs : List Binding}
    (hbs : t.bindings matcher = .ok bs) : (bs.map RuleName.encode).Nodup := by
  by_cases hformat : t.format matcher = []
  · rw [bindings_eq_nullaryBindings hformat] at hbs
    obtain ⟨_, rfl⟩ := nullaryBindings_eq_ok_iff.1 hbs
    exact h.nodup_names_bare
  · obtain ⟨placed, henum⟩ := enumerates_of_bindings hformat hbs
    exact henum.nodup_names h hslots

end Taxonomy

end MutationRules
