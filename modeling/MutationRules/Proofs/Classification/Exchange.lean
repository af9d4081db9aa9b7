import MutationRules.Proofs.Classification.Refinement
import MutationRules.Proofs.RuleSet.Filing

/-!
# Exchanged operands in names and classes

Whether a rule exchanges the operands of its matcher is not written down anywhere. It is
found out from a decoded name, whose matched operands reappear in the other order. The
texts of two operands differ, as they end in the numbers of their slots; so operands
reappear in the other order only where a replacement takes two slots the other way around.
-/

namespace MutationRules

/-- A name is swapped if it has the same two operands on both sides, in different orders. -/
theorem RuleName.isSwapped_iff {name : RuleName} : name.isSwapped = true ↔
    ∃ a b, a ≠ b ∧ name.matched.operands = [a, b] ∧ name.replacement.operands = [b, a] := by
  rw [isSwapped]
  constructor
  · intro h
    split at h
    next m₁ m₂ r₁ r₂ hm hr =>
      simp only [Bool.and_eq_true, bne_iff_ne, beq_iff_eq] at h
      obtain ⟨⟨hne, rfl⟩, rfl⟩ := h
      exact ⟨_, _, hne, hm, hr⟩
    next => simp at h
  · rintro ⟨a, b, hne, hm, hr⟩
    rw [hm, hr]
    simp [hne]

namespace Taxonomy

variable {settings : Settings} {declarations : List Declaration} {t : Taxonomy}
  {matcher replacer : Operator} {placement : Placement} {b : Binding} {bs : List Binding}

/-- Whether a replacement takes the two slots of a matcher in the other order. -/
def Exchanges (t : Taxonomy) (key replacement : Expression) : Prop :=
  (t.format key.operator).length = 2 ∧
    replacement.operands.map Operand.slot? = [some 2, some 1]

/-! ## Bindings -/

/-- The operands of a fitting replacement reappear in the other order if they are exchanged. -/
theorem BoundAt.isSwapped_iff (h : t.BoundAt matcher replacer placement b)
    (hfits : t.Fits matcher replacer placement) :
    (RuleName.mk b.key.side b.replacement.side).isSwapped = true ↔
      t.Exchanges b.key b.replacement := by
  have hslots := h.hasAtSlot hfits
  rw [RuleName.isSwapped_iff]
  cases h with
  | whole hf hkey => simp [Exchanges, Expression.side]
  | slot hf hkind hkey => simp [Exchanges, Expression.side]
  | @pair left right l r leftKind rightKind key hf hleft hright hkey =>
    have hl := lt_length_of_resolveAt hleft
    have hr := lt_length_of_resolveAt hright
    simp only [List.forall_mem_cons, Expression.hasAtSlot_atSlot] at hslots
    obtain ⟨hkeyLeft, hkeyRight, _⟩ := hslots
    constructor
    · rintro ⟨x, y, hne, hmatched, hreplacing⟩
      have hlength : (t.format matcher).length = 2 := by
        rw [← hkey.1]
        simpa [Expression.side] using congrArg List.length hmatched
      -- a left operand at the first slot would be both operands of the key
      have hlater : l ≠ 0 := by
        rintro rfl
        have hx : (key.map Operand.text)[0]? = some (Operand.atSlot leftKind 0).text := by
          rw [List.getElem?_map, hkeyLeft, Option.map_some]
        rw [show key.map Operand.text = [x, y] from hmatched] at hx
        exact hne ((Option.some.inj hx).trans (List.cons.inj hreplacing).1)
      have hdistinct := hfits.1
      obtain ⟨rfl, rfl⟩ : l = 1 ∧ r = 0 := by omega
      exact ⟨hlength, rfl⟩
    · rintro ⟨hlength, hexchanged⟩
      obtain ⟨rfl, rfl⟩ : l = 1 ∧ r = 0 := by simpa [Operand.atSlot] using hexchanged
      obtain ⟨first, second, rfl⟩ := List.length_eq_two.1 (hkey.1.trans hlength)
      obtain rfl := Option.some.inj hkeyLeft
      obtain rfl := Option.some.inj hkeyRight
      refine ⟨_, _, fun htext => ?_, rfl, rfl⟩
      exact absurd (Operand.position_eq_of_text_eq (by decide) (by decide) htext) (by decide)

/-- A commutative replacement takes slots in order. -/
theorem BoundAt.not_exchanges (h : t.BoundAt matcher replacer placement b)
    (hfits : t.Fits matcher replacer placement) (hc : t.isCommutative replacer = true) :
    ¬ t.Exchanges b.key b.replacement := by
  rintro ⟨_, hslots⟩
  cases h with
  | whole hf hkey => simp at hslots
  | slot hf hkind hkey => simp at hslots
  | @pair left right l r leftKind rightKind key hf hleft hright hkey =>
    obtain ⟨rfl, rfl⟩ : l = 1 ∧ r = 0 := by simpa [Operand.atSlot] using hslots
    rcases hfits.1 with hlt | ⟨_, hfree⟩
    · omega
    · rw [hc] at hfree
      exact Bool.noConfusion hfree

/-- Bare operands take no slots. -/
theorem not_exchanges_bareBinding (kinds : List Kind) :
    ¬ t.Exchanges (bareBinding matcher replacer kinds).key
      (bareBinding matcher replacer kinds).replacement := by
  rintro ⟨_, hslots⟩
  have hbare : some 2 ∈ (kinds.map Operand.bare).map Operand.slot? :=
    hslots ▸ List.mem_cons_self ..
  simp [Operand.bare] at hbare

/-- The two sides of a binding are those of a swapped name if it exchanges operands. -/
theorem isSwapped_iff_of_mem_bindings (hbs : t.bindings matcher = .ok bs) (hb : b ∈ bs) :
    (RuleName.mk b.key.side b.replacement.side).isSwapped = true ↔
      t.Exchanges b.key b.replacement := by
  rcases cases_of_mem_bindings hbs hb with ⟨_, _, hfits, hbound⟩ | ⟨replacer, kinds, _, rfl⟩
  · exact hbound.isSwapped_iff hfits
  · have hbare : ¬ (RuleName.mk (bareBinding matcher replacer kinds).key.side
        (bareBinding matcher replacer kinds).replacement.side).isSwapped = true := by
      rw [RuleName.isSwapped_iff]
      rintro ⟨_, _, _, hmatched, _⟩
      exact List.cons_ne_nil _ _ hmatched.symm
    exact iff_of_false hbare (not_exchanges_bareBinding kinds)

/-- No binding of a commutative replacement exchanges operands. -/
theorem not_exchanges_of_mem_bindings (hbs : t.bindings matcher = .ok bs) (hb : b ∈ bs)
    (hc : t.isCommutative b.replacement.operator = true) :
    ¬ t.Exchanges b.key b.replacement := by
  rcases cases_of_mem_bindings hbs hb with ⟨_, _, hfits, hbound⟩ | ⟨_, kinds, _, rfl⟩
  · exact hbound.not_exchanges hfits (hbound.replacement_operator ▸ hc)
  · exact not_exchanges_bareBinding kinds

/-! ## Rules -/

/-- Keys with one text are equal in a taxonomy with admissible formats. -/
theorem HasAdmissibleFormats.textDeterminesKey (h : t.HasAdmissibleFormats)
    (hbs : t.bindings matcher = .ok bs) : TextDeterminesKey bs := by
  by_cases hformat : t.format matcher = []
  · intro a ha b hb _
    obtain ⟨_, _, _, _, rfl⟩ := (mem_bindings_iff_of_format_eq_nil hformat hbs).1 ha
    obtain ⟨_, _, _, _, rfl⟩ := (mem_bindings_iff_of_format_eq_nil hformat hbs).1 hb
    rfl
  · obtain ⟨placed, henum⟩ := enumerates_of_bindings hformat hbs
    exact henum.textDeterminesKey (h.isUnambiguous matcher)

/-- A rule is shown under the key of its binding in a taxonomy with admissible formats. -/
theorem HasAdmissibleFormats.exists_binding (h : t.HasAdmissibleFormats) {set : RuleSet}
    (hset : t.synthesize = .ok set) {key : Expression} {rule : Rule}
    (hrule : (key, rule) ∈ set.rules) :
    ∃ matcher groups bs b, t.synthesizeMatcher matcher = .ok groups ∧
      t.bindings matcher = .ok bs ∧ b ∈ bs ∧ b.key = key ∧ Rule.ofBinding b = rule ∧
        ∃ g ∈ groups, g.key = key ∧ rule ∈ g.rules := by
  obtain ⟨g, hg, hmem⟩ := List.mem_flatMap.1 hrule
  obtain ⟨_, hown, hpair⟩ := List.mem_map.1 hmem
  obtain ⟨rfl, rfl⟩ := Prod.mk.inj hpair
  obtain ⟨matcher, _, groups, hgroups, hg⟩ := (mem_groups_iff hset).1 hg
  obtain ⟨bs, hbs, _, rfl⟩ := synthesizeMatcher_eq_ok_iff.1 hgroups
  have hgrouping := RuleGroup.isGrouping_collect bs
  obtain ⟨b, hb, htext, hof⟩ := (hgrouping.mem_rules_iff hg).1 hown
  obtain ⟨a, ha, hkey⟩ := hgrouping.exists_key hg
  have hsame : b.key = a.key := h.textDeterminesKey hbs b hb a ha (hkey ▸ htext)
  exact ⟨matcher, _, bs, b, hgroups, hbs, hb, hsame.trans hkey, hof, g, hg, rfl, hown⟩

/-! ## Classes -/

/-- A class is marked if its name is swapped, and does not change otherwise. -/
theorem exists_classOf_operatorSwap (ht : ofDeclarations settings declarations = .ok t)
    {name : String} {decoded : RuleName} (hname : RuleName.decode name = .ok decoded) :
    ∃ whole marked, t.classOf name .operator = .ok whole ∧
      t.classOf name .operatorSwap = .ok marked ∧
      ("/SWAPPED".toList <:+ marked.toList ↔ decoded.isSwapped = true) ∧
      (decoded.isSwapped = false → marked = whole) := by
  refine ⟨_, _, classOf_of_pathsOf? hname rfl, classOf_of_pathsOf? hname rfl, ?_, ?_⟩
  · by_cases hswapped : decoded.isSwapped = true
    · refine iff_of_true ?_ hswapped
      rw [if_pos hswapped, ClassPath.toList_pairText, ClassPath.toList_text_child]
      exact ((List.suffix_append _ _).trans (List.suffix_cons _ _)).trans
        (List.suffix_append _ _)
    · refine iff_of_false (fun hsuffix => ?_) hswapped
      rw [if_neg hswapped] at hsuffix
      have hleaf := leaf_classPath ht decoded.replacement.operator
      apply (ClassPath.swapMarker_ne_token decoded.replacement.operator).symm
      rw [← hleaf]
      exact ClassPath.leaf_eq_of_suffix (hleaf ▸ ClassPath.isSegment_token _)
        ClassPath.isSegment_swapMarker hsuffix
  · intro hplain
    rw [if_neg (by simp [hplain])]

/-- Decoded names and classes tell which rules exchange the operands of their matcher, and those of
commutative replacements never do. -/
theorem exchanges_recovered (ht : ofDeclarations settings declarations = .ok t)
    (hformats : t.HasAdmissibleFormats) {set : RuleSet} (hset : t.synthesize = .ok set) :
    ∀ key rule, (key, rule) ∈ set.rules → ∃ decoded whole marked,
      RuleName.decode rule.name = .ok decoded ∧
      t.classOf rule.name .operator = .ok whole ∧ t.classOf rule.name .operatorSwap = .ok marked ∧
      (decoded.isSwapped = true ↔ t.Exchanges key rule.replacement) ∧
      ("/SWAPPED".toList <:+ marked.toList ↔ t.Exchanges key rule.replacement) ∧
      (¬ t.Exchanges key rule.replacement → marked = whole) ∧
      (t.isCommutative rule.replacement.operator = true → decoded.isSwapped = false) := by
  intro key rule hrule
  obtain ⟨matcher, groups, bs, b, hgroups, hbs, hb, rfl, rfl, g, hg, hkey, hmem⟩ :=
    hformats.exists_binding hset hrule
  have hname : RuleName.decode (Rule.ofBinding b).name = .ok ⟨b.key.side, b.replacement.side⟩ :=
    hkey ▸ (hformats.hasAdmissibleKinds ht).decode_name hgroups hg hmem
  obtain ⟨whole, marked, hwhole, hmarked, hsuffix, hunmarked⟩ :=
    exists_classOf_operatorSwap ht hname
  have hswapped := isSwapped_iff_of_mem_bindings hbs hb
  refine ⟨_, whole, marked, hname, hwhole, hmarked, hswapped, hsuffix.trans hswapped, ?_, ?_⟩
  · intro hnot
    exact hunmarked (Bool.eq_false_iff.2 fun hs => hnot (hswapped.1 hs))
  · intro hc
    exact Bool.eq_false_iff.2 fun hs => not_exchanges_of_mem_bindings hbs hb hc (hswapped.1 hs)

/-- By default the exchanged subtraction is told from the others. -/
theorem exchangedSubtraction_recovered : ∃ t set key rule, standard {} = .ok t ∧
    t.HasAdmissibleFormats ∧ t.synthesize = .ok set ∧ (key, rule) ∈ set.rules ∧
    rule.name = "ADD$@1$@2$!SUB$@2$@1$" ∧ t.Exchanges key rule.replacement ∧
    ∃ decoded whole marked, RuleName.decode rule.name = .ok decoded ∧
      t.classOf rule.name .operator = .ok whole ∧ t.classOf rule.name .operatorSwap = .ok marked ∧
      (decoded.isSwapped = true ↔ t.Exchanges key rule.replacement) ∧
      ("/SWAPPED".toList <:+ marked.toList ↔ t.Exchanges key rule.replacement) ∧
      (¬ t.Exchanges key rule.replacement → marked = whole) ∧
      (t.isCommutative rule.replacement.operator = true → decoded.isSwapped = false) := by
  obtain ⟨t, set, ht, hset, _⟩ := Settings.synthesizes_of_validate Settings.validate_default
  have hformats : t.HasAdmissibleFormats := (Standard.hasAdmissibleKinds ht).formats
  have hmatcher : Operator.add ∈ t.matchers := (Standard.mem_matchers_iff ht).2 (by decide)
  obtain ⟨groups, hgroups⟩ := exists_groups_of_synthesize hset hmatcher
  obtain ⟨bs, hbs, _, rfl⟩ := synthesizeMatcher_eq_ok_iff.1 hgroups
  have hadd : t.format .add = [.arithmetic, .arithmetic] :=
    Standard.format_arithmetic ht (by decide)
  have hsub : t.format .sub = [.arithmetic, .arithmetic] :=
    Standard.format_arithmetic ht (by decide)
  obtain ⟨placed, henum⟩ := enumerates_of_bindings (by simp [hadd]) hbs
  have hallowed : t.allows .add .sub = true :=
    allows_iff.2 ((Standard.mem_replacers_iff ht).2 (by decide))
  have hfree : t.isCommutative .sub = false := by
    rw [Bool.eq_false_iff, Ne, Standard.isCommutative_iff ht]
    decide
  have hbound : t.bindAt? .add .sub (.pair 1 0) =
      some ⟨⟨.add, [.atSlot .arithExpr 0, .atSlot .arithExpr 1]⟩,
        ⟨.sub, [.atSlot .arithExpr 1, .atSlot .arithExpr 0]⟩⟩ := by
    simp only [bindAt?, hadd, hsub]
    decide
  have hmem := henum.mem_of_boundAt hallowed
    (by simp [placements, hadd, hsub, hfree, mem_slotPairs]) (bindAt?_eq_some_iff.1 hbound)
  obtain ⟨g, hg, htext, hown⟩ := (RuleGroup.isGrouping_collect bs).exists_group hmem
  obtain ⟨a, ha, hkey⟩ := (RuleGroup.isGrouping_collect bs).exists_key hg
  have hsame : g.key = ⟨.add, [.atSlot .arithExpr 0, .atSlot .arithExpr 1]⟩ := by
    rw [← hkey] at htext ⊢
    exact hformats.textDeterminesKey hbs a ha _ hmem htext
  have hrule : (g.key, _) ∈ set.rules := List.mem_flatMap.2
    ⟨g, (mem_groups_iff hset).2 ⟨_, hmatcher, _, hgroups, hg⟩, List.mem_map_of_mem hown⟩
  have hexchanges : t.Exchanges g.key
      ⟨.sub, [.atSlot .arithExpr 1, .atSlot .arithExpr 0]⟩ := by
    rw [hsame]
    exact ⟨by simp [hadd], rfl⟩
  exact ⟨t, set, g.key, _, ht, hformats, hset, hrule, by decide, hexchanges,
    exchanges_recovered ht hformats hset _ _ hrule⟩

end Taxonomy

end MutationRules
