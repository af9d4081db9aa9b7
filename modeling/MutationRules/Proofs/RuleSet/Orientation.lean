import MutationRules.Proofs.RuleSet.Standard

/-!
# Orientations of replacements with two operands

Two slots of a matcher can be taken by a replacement with two operands in order or
exchanged. If its operands commute, only the order of the slots is tried. The formats of
the standard taxonomy take a pair of slots in order if they take it at all.
-/

namespace MutationRules

/-- Whether the operands of a rule with some operator stand at two slots, in either order. -/
def Rule.TakesPair (rule : Rule) (replacer : Operator) (i j : Nat) : Prop :=
  rule.replacement.operator = replacer ∧
    (rule.replacement.operands.map Operand.slot? = [some (i + 1), some (j + 1)] ∨
      rule.replacement.operands.map Operand.slot? = [some (j + 1), some (i + 1)])

instance (rule : Rule) (replacer : Operator) (i j : Nat) :
    Decidable (rule.TakesPair replacer i j) :=
  inferInstanceAs (Decidable (_ ∧ _))

/-- The number of rules that put an operator at two slots. -/
def RuleSet.pairCount (set : RuleSet) (replacer : Operator) (i j : Nat) : Nat :=
  set.rules.countP fun entry => entry.2.TakesPair replacer i j

/-- Rules that take a pair are counted by their bindings. -/
theorem IsGrouping.pairCount_eq {bindings : List Binding} {groups : List RuleGroup}
    (h : IsGrouping bindings groups) (replacer : Operator) (i j : Nat) :
    (RuleSet.mk groups).pairCount replacer i j =
      bindings.countP fun b => (Rule.ofBinding b).TakesPair replacer i j := by
  have hcount := h.perm_rules.countP_eq fun rule => rule.TakesPair replacer i j
  rwa [List.countP_map, List.countP_map] at hcount

/-- There is no slot beside the two of a format. -/
theorem Format.openBeside_pair {format : Format} (h : format.length = 2) :
    format.OpenBeside [0, 1] := by
  intro position candidates hc hbeside
  have hlt : position < format.length := (List.getElem?_eq_some_iff.1 hc).1
  simp only [List.mem_cons, List.not_mem_nil, or_false] at hbeside
  omega

namespace Taxonomy

variable {t : Taxonomy} {matcher replacer : Operator}

/-- Whether a replacement takes its left operand at one slot of a matcher and its right one at
another. -/
def Orients (t : Taxonomy) (matcher replacer : Operator) (l r : Nat) : Prop :=
  ∃ left right leftKind rightKind, t.format replacer = [left, right] ∧
    resolveAt (t.format matcher) left l = some leftKind ∧
    resolveAt (t.format matcher) right r = some rightKind

/-- The rule of a binding takes a pair if its placement is the pair in either order. -/
theorem BoundAt.takesPair_iff {placement : Placement} {b : Binding}
    (h : t.BoundAt matcher replacer placement b) {other : Operator} {i j : Nat} :
    (Rule.ofBinding b).TakesPair other i j ↔
      replacer = other ∧ (placement = .pair i j ∨ placement = .pair j i) := by
  cases h with
  | whole hf hkey => simp [Rule.TakesPair, Rule.ofBinding]
  | slot hf hkind hkey => simp [Rule.TakesPair, Rule.ofBinding]
  | pair hf hleft hright hkey => simp [Rule.TakesPair, Rule.ofBinding, Operand.atSlot]

/-- A placement comes once. -/
theorem Enumerates.nodup {placed : List (Operator × Placement)} {bs : List Binding}
    (henum : t.Enumerates matcher placed bs) : placed.Nodup := by
  refine henum.ordered.imp ?_
  rintro a _ hbefore rfl
  exact Placement.not_precedes_self a hbefore

/-- A commutative replacement has one binding at a pair of slots if it fits there in order, and
none else. -/
theorem Enumerates.countP_takesPair {placed : List (Operator × Placement)} {bs : List Binding}
    (henum : t.Enumerates matcher placed bs) (hcommutes : t.isCommutative replacer = true)
    {i j : Nat} (hij : i < j) :
    (bs.countP fun b => (Rule.ofBinding b).TakesPair replacer i j) =
      placed.count (replacer, .pair i j) := by
  have hplaced : (bs.countP fun b => (Rule.ofBinding b).TakesPair replacer i j) =
      placed.countP fun p => p.1 = replacer ∧ (p.2 = .pair i j ∨ p.2 = .pair j i) :=
    countP_eq_of_forall₂ henum.bound fun _ _ hb => decide_eq_decide.2 hb.takesPair_iff
  rw [hplaced]
  refine List.countP_congr fun p hp => ?_
  obtain ⟨other, placement⟩ := p
  simp only [decide_eq_true_eq, beq_iff_eq, Prod.mk.injEq]
  refine and_congr_right ?_
  rintro rfl
  refine or_iff_left ?_
  rintro rfl
  -- the exchanged pair is not placed, as the operands commute
  obtain ⟨_, hfits⟩ := (henum.mem_iff other _).1 hp
  rcases hfits.1 with hlt | ⟨_, hnot⟩
  · omega
  · rw [hcommutes] at hnot
    cases hnot

/-- A commutative replacement of a matcher has at most one rule at two slots, and has one if it
takes them in order and every other slot has some kind. -/
theorem pairCount_of_synthesizeMatcher (hformat : t.format matcher ≠ []) {groups : List RuleGroup}
    (hok : t.synthesizeMatcher matcher = .ok groups) (hallowed : t.allows matcher replacer = true)
    (hcommutes : t.isCommutative replacer = true) {i j : Nat} (hij : i < j)
    (hopen : (t.format matcher).OpenBeside [i, j]) :
    (RuleSet.mk groups).pairCount replacer i j ≤ 1 ∧
      ((RuleSet.mk groups).pairCount replacer i j = 1 ↔ t.Orients matcher replacer i j) := by
  obtain ⟨bs, hbs, _, rfl⟩ := synthesizeMatcher_eq_ok_iff.1 hok
  obtain ⟨placed, henum⟩ := enumerates_of_bindings hformat hbs
  have hfits : t.Fits matcher replacer (.pair i j) ↔ t.Orients matcher replacer i j :=
    ⟨fun h => h.2.1, fun h => ⟨Or.inl hij, h, hopen⟩⟩
  have hplaced : (replacer, Placement.pair i j) ∈ placed ↔ t.Orients matcher replacer i j := by
    rw [henum.mem_iff, hfits, and_iff_right hallowed]
  rw [(RuleGroup.isGrouping_collect bs).pairCount_eq, henum.countP_takesPair hcommutes hij,
    ← hplaced]
  have hle := List.nodup_iff_count_le_one.1 henum.nodup (replacer, .pair i j)
  refine ⟨hle, ?_⟩
  rw [← List.one_le_count_iff]
  omega

end Taxonomy

/-! ## Standard formats -/

namespace Standard

open Declaration (Topic)

/-- Two standard slots admit the same, or the second one admits arithmetic values. -/
theorem slots_of_mem {constants : Constants} {operators : List Operator} {slots : Format}
    (h : .format operators slots ∈ declarations constants) (htwo : slots.length = 2) :
    (∃ c, slots = [c, c]) ∨
      ∃ a ∈ [KindSet.arithmetic, .pointer, .single .arithVar], slots = [a, .arithmetic] := by
  have hall : ∀ said ∈ Topic.format.statements (formats constants), said.2.length = 2 →
      (∃ c, said.2 = [c, c]) ∨
        ∃ a ∈ [KindSet.arithmetic, .pointer, .single .arithVar], said.2 = [a, .arithmetic] := by
    simp [formats, Topic.statements, Topic.format, Operator.matchOnlyFamilies]
  exact hall _ (mem_formats_iff.1 h) htwo

variable {settings : Settings} {t : Taxonomy} {matcher replacer : Operator}

theorem slots_of_format (h : Taxonomy.standard settings = .ok t) {op : Operator}
    (htwo : (t.format op).length = 2) : (∃ c, t.format op = [c, c]) ∨
      ∃ a ∈ [KindSet.arithmetic, .pointer, .single .arithVar], t.format op = [a, .arithmetic] := by
  obtain ⟨_, hdeclared, _⟩ := (Taxonomy.format_eq_iff_of_built h).1 (Eq.refl (t.format op))
  exact slots_of_mem hdeclared htwo

/-- A standard replacement takes two slots in order if it takes them exchanged. -/
theorem orients_of_exchanged (h : Taxonomy.standard settings = .ok t) {i j : Nat} (hij : i < j)
    (hexchanged : t.Orients matcher replacer j i) : t.Orients matcher replacer i j := by
  obtain ⟨left, right, leftKind, rightKind, hreplacer, hleft, hright⟩ := hexchanged
  have hlt := Taxonomy.lt_length_of_resolveAt hleft
  have hle := length_format_le h matcher
  obtain ⟨rfl, rfl⟩ : i = 0 ∧ j = 1 := by omega
  have hm : (t.format matcher).length = 2 := by omega
  have hr : (t.format replacer).length = 2 := by rw [hreplacer]; rfl
  -- the slots of the matcher are alike
  rcases slots_of_format h hm with ⟨c, hc⟩ | ⟨a, ha, hmatcher⟩
  · rw [hc] at hleft hright
    exact ⟨left, right, leftKind, rightKind, hreplacer, hc ▸ hleft, hc ▸ hright⟩
  -- the slots of the replacement are alike
  rcases slots_of_format h hr with ⟨c, hc⟩ | ⟨l, hl, hl'⟩
  · obtain ⟨rfl, rfl⟩ : left = c ∧ right = c := by simpa [hreplacer] using hc
    exact ⟨right, right, rightKind, leftKind, hreplacer, hright, hleft⟩
  -- both have an arithmetic slot behind another, and what fits exchanged is arithmetic too
  obtain ⟨rfl, rfl⟩ : left = l ∧ right = .arithmetic := by simpa [hreplacer] using hl'
  have hall : ∀ a ∈ [KindSet.arithmetic, .pointer, .single .arithVar],
      ∀ left ∈ [KindSet.arithmetic, .pointer, .single .arithVar],
        (Taxonomy.resolveAt [a, .arithmetic] left 1).isSome = true →
          (Taxonomy.resolveAt [a, .arithmetic] .arithmetic 0).isSome = true →
            (Taxonomy.resolveAt [a, .arithmetic] left 0).isSome = true := by decide
  rw [hmatcher] at hleft hright
  have hsome := hall a ha left hl (by rw [hleft]; rfl) (by rw [hright]; rfl)
  obtain ⟨kind, hkind⟩ := Option.isSome_iff_exists.1 hsome
  exact ⟨left, .arithmetic, kind, .arithExpr, hreplacer, hmatcher ▸ hkind, hmatcher ▸ rfl⟩

end Standard

namespace Taxonomy

/-- A commutative replacement of a matcher has at most one rule at two slots, and has one exactly
if it takes them in order, every other slot having some kind. In a standard taxonomy it has one if
it takes them in order or exchanged. -/
theorem pairCount_of_commutative (t : Taxonomy) {matcher replacer : Operator}
    (hformat : t.format matcher ≠ []) {groups : List RuleGroup}
    (hok : t.synthesizeMatcher matcher = .ok groups) (hallowed : t.allows matcher replacer = true)
    (hcommutes : t.isCommutative replacer = true) {i j : Nat} (hij : i < j)
    (hopen : (t.format matcher).OpenBeside [i, j]) :
    (RuleSet.mk groups).pairCount replacer i j ≤ 1 ∧
      ((RuleSet.mk groups).pairCount replacer i j = 1 ↔ t.Orients matcher replacer i j) ∧
      ∀ settings, standard settings = .ok t →
        t.Orients matcher replacer i j ∨ t.Orients matcher replacer j i →
          (RuleSet.mk groups).pairCount replacer i j = 1 := by
  obtain ⟨hle, hone⟩ := pairCount_of_synthesizeMatcher hformat hok hallowed hcommutes hij hopen
  refine ⟨hle, hone, fun settings hstandard heither => hone.2 ?_⟩
  exact heither.elim id (Standard.orients_of_exchanged hstandard hij)

/-- By default `MUL` replaces `ADD` at both slots by one rule. -/
theorem products_pairCount : ∃ t groups, standard {} = .ok t ∧ t.format .add ≠ [] ∧
    t.synthesizeMatcher .add = .ok groups ∧ t.allows .add .mul = true ∧
    t.isCommutative .mul = true ∧ 0 < 1 ∧ (t.format .add).OpenBeside [0, 1] ∧
    t.Orients .add .mul 0 1 ∧
    (RuleSet.mk groups).pairCount .mul 0 1 ≤ 1 ∧
      ((RuleSet.mk groups).pairCount .mul 0 1 = 1 ↔ t.Orients .add .mul 0 1) ∧
      ∀ settings, standard settings = .ok t →
        t.Orients .add .mul 0 1 ∨ t.Orients .add .mul 1 0 →
          (RuleSet.mk groups).pairCount .mul 0 1 = 1 := by
  have hv : ({} : Settings).validate = .ok () := by decide
  obtain ⟨t, ht⟩ := Standard.exists_standard hv
  have hadd : t.format .add = [.arithmetic, .arithmetic] :=
    Standard.format_arithmetic ht (by decide)
  have hmul : t.format .mul = [.arithmetic, .arithmetic] :=
    Standard.format_arithmetic ht (by decide)
  have hne : t.format .add ≠ [] := by simp [hadd]
  have hmatcher : Operator.add ∈ t.matchers := (Standard.mem_matchers_iff ht).2 (by decide)
  have hallowed : t.allows .add .mul = true :=
    allows_iff.2 ((Standard.mem_replacers_iff ht).2 (by decide))
  have hcommutes : t.isCommutative .mul = true := (Standard.isCommutative_iff ht).2 (by decide)
  have hopen : (t.format .add).OpenBeside [0, 1] := Format.openBeside_pair (by simp [hadd])
  have horients : t.Orients .add .mul 0 1 := by
    refine ⟨_, _, .arithExpr, .arithExpr, hmul, ?_, ?_⟩
    · rw [hadd]
      decide
    · rw [hadd]
      decide
  obtain ⟨groups, hok⟩ := Standard.exists_groups ht hmatcher
  exact ⟨t, groups, ht, hne, hok, hallowed, hcommutes, Nat.zero_lt_one, hopen, horients,
    pairCount_of_commutative t hne hok hallowed hcommutes Nat.zero_lt_one hopen⟩

/-- Declarations of a commutative replacement that takes the slots of its matcher only
exchanged. -/
def mirrored : List Declaration := [
  .format [.add] [.arithmetic, .pointer],
  .format [.pointerAdd] [.pointer, .arithmetic],
  .format (Operator.all.filter fun op => !(op ∈ [Operator.add, .pointerAdd])) [],
  .family Operator.all ["CLASS"],
  .commutative [.pointerAdd],
  .replace [.add] [.pointerAdd] []]

/-- A commutative replacement that takes two slots only exchanged has no rule there. -/
theorem mirrored_pairCount : ∃ t groups, ofDeclarations {} mirrored = .ok t ∧
    t.format .add ≠ [] ∧ t.synthesizeMatcher .add = .ok groups ∧
    t.allows .add .pointerAdd = true ∧ t.isCommutative .pointerAdd = true ∧
    (t.format .add).OpenBeside [0, 1] ∧ t.Orients .add .pointerAdd 1 0 ∧
    (RuleSet.mk groups).pairCount .pointerAdd 0 1 = 0 := by
  obtain ⟨t, ht, hformat, hpair⟩ :=
    exists_described (show IsDescription mirrored by decide +kernel)
  have hpairs : statedPairs mirrored = [(.add, .pointerAdd)] := by decide
  have hadd : t.format .add = [.arithmetic, .pointer] := (hformat _ _).2 (by decide)
  have hreplacer : t.format .pointerAdd = [.pointer, .arithmetic] := (hformat _ _).2 (by decide)
  have hcommutes : t.isCommutative .pointerAdd = true :=
    (isCommutative_iff_of_built ht).2 ⟨[.pointerAdd], by simp [mirrored], List.mem_singleton_self _⟩
  have hallows : ∀ replacer, t.allows .add replacer = true ↔ replacer = .pointerAdd := by
    simp [hpair, hpairs]
  have hne : t.format .add ≠ [] := by simp [hadd]
  have hallowed : t.allows .add .pointerAdd = true := (hallows .pointerAdd).2 rfl
  have hopen : (t.format .add).OpenBeside [0, 1] := Format.openBeside_pair (by simp [hadd])
  have hexchanged : t.Orients .add .pointerAdd 1 0 := by
    refine ⟨_, _, .addressExpr, .arithExpr, hreplacer, ?_, ?_⟩
    · rw [hadd]
      decide
    · rw [hadd]
      decide
  have hstraight : ¬ t.Orients .add .pointerAdd 0 1 := by
    rintro ⟨left, right, leftKind, _, hf, hleft, _⟩
    obtain ⟨rfl, rfl⟩ : .pointer = left ∧ .arithmetic = right := by simpa [hreplacer] using hf
    have hnone : resolveAt [.arithmetic, .pointer] .pointer 0 = none := by decide
    rw [hadd, hnone] at hleft
    cases hleft
  obtain ⟨groups, _, _, hok, _⟩ := exists_enumeration hne fun replacer hr => by
    rw [(hallows replacer).1 hr, hreplacer]
    exact Nat.le_refl 2
  obtain ⟨hle, hone⟩ :=
    pairCount_of_synthesizeMatcher hne hok hallowed hcommutes Nat.zero_lt_one hopen
  refine ⟨t, groups, ht, hne, hok, hallowed, hcommutes, hopen, hexchanged, ?_⟩
  have hnot := mt hone.1 hstraight
  omega

end Taxonomy

end MutationRules
