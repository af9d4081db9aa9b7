import Mathlib.Data.List.Basic
import MutationRules.Proofs.Ordered.Extensionality
import MutationRules.Proofs.Traversal
import MutationRules.RuleSet.Synthesis

/-!
# Placements of replacements

A replacement is placed in a matcher with operands as a whole, at one slot or at two
slots. A placement fits if the slots that it takes have kinds that the replacement
admits and every other slot has some kind; the binding there gives the taken slots
these kinds and the others the kinds preferred without a requirement. The order of
placements is the order in which their bindings arise.
-/

namespace MutationRules

/-! ## Binding the slots of a format -/

/-- A kind can be chosen without a requirement exactly if there is one. -/
theorem KindSet.isSome_resolve_none_iff {candidates : KindSet} :
    (candidates.resolve none).isSome = true ↔ candidates ≠ ∅ := by
  rw [resolve, List.find?_isSome]
  constructor
  · rintro ⟨kind, hk, _⟩ rfl
    exact OrderedSet.not_mem_empty (mem_preferenceOrder.1 hk)
  · intro h
    by_contra hnone
    apply h
    refine OrderedSet.ext fun kind => ⟨fun hk => ?_, fun hk => absurd hk OrderedSet.not_mem_empty⟩
    exact absurd ⟨kind, mem_preferenceOrder.2 hk, rfl⟩ hnone

/-- A key has one operand for each slot, of the kind fixed there or else of the preferred kind. -/
def Format.Binds (format : Format) (fixed : List (Nat × Kind)) (key : List Operand) : Prop :=
  key.length = format.length ∧
    ∀ position candidates, format[position]? = some candidates →
      ∃ kind, key[position]? = some (.atSlot kind position) ∧
        (fixed.lookup position).or (KindSet.resolve candidates none) = some kind

/-- Binding a format gives the key that binds it. -/
theorem Format.bind_eq_some_iff {format : Format} {fixed : List (Nat × Kind)}
    {key : List Operand} : format.bind fixed = some key ↔ format.Binds fixed key := by
  rw [Format.bind, mapM_eq_some_iff, forall₂_iff_getElem?, List.length_zipIdx, Format.Binds]
  refine and_congr_right fun _ => ⟨fun h position candidates hc => ?_, fun h position x hx => ?_⟩
  · obtain ⟨operand, ho, he⟩ := h position (candidates, position) (by simp [hc])
    obtain ⟨kind, hk, rfl⟩ := Option.map_eq_some_iff.1 he
    exact ⟨kind, ho, hk⟩
  · rw [List.getElem?_zipIdx, Nat.zero_add] at hx
    obtain ⟨candidates, hc, rfl⟩ := Option.map_eq_some_iff.1 hx
    obtain ⟨kind, hkey, hk⟩ := h position candidates hc
    exact ⟨_, hkey, by simp [hk]⟩

/-- Every slot of a format has some kind, the taken ones perhaps not. -/
def Format.OpenBeside (format : Format) (taken : List Nat) : Prop :=
  ∀ (position : Nat) (candidates : KindSet), format[position]? = some candidates →
    position ∉ taken → candidates ≠ ∅

/-- A format can be bound if every slot without a fixed kind has some kind. -/
theorem Format.isSome_bind_iff {format : Format} {fixed : List (Nat × Kind)} :
    (format.bind fixed).isSome = true ↔ format.OpenBeside (fixed.map Prod.fst) := by
  have hlookup : ∀ position, fixed.lookup position = none ↔ position ∉ fixed.map Prod.fst := by
    intro position
    rw [List.lookup_eq_none_iff, List.mem_map]
    constructor
    · rintro h ⟨entry, he, rfl⟩
      simpa using h entry he
    · intro h entry he
      rw [bne_iff_ne]
      rintro rfl
      exact h ⟨entry, he, rfl⟩
  rw [Format.bind, isSome_mapM_iff]
  constructor
  · intro h position candidates hc htaken
    have hm : (candidates, position) ∈ format.zipIdx := by
      rw [List.mem_zipIdx_iff_getElem?]
      exact hc
    have hfixed := (hlookup position).2 htaken
    simpa [hfixed, KindSet.isSome_resolve_none_iff] using h _ hm
  · rintro h ⟨candidates, position⟩ hm
    rw [List.mem_zipIdx_iff_getElem?] at hm
    cases hfixed : fixed.lookup position with
    | some kind => simp [hfixed]
    | none =>
      have hc := h position candidates hm ((hlookup position).1 hfixed)
      simpa [hfixed, KindSet.isSome_resolve_none_iff] using hc

/-- A bound format has a kind in every slot but perhaps the fixed ones. -/
theorem Format.Binds.openBeside {format : Format} {fixed : List (Nat × Kind)}
    {key : List Operand} (h : format.Binds fixed key) :
    format.OpenBeside (fixed.map Prod.fst) :=
  Format.isSome_bind_iff.1 (Option.isSome_iff_exists.2 ⟨key, Format.bind_eq_some_iff.2 h⟩)

/-- Whether an operand is tagged with a slot of a format and of a kind that the slot admits. -/
def Format.Admits (format : Format) (operand : Operand) : Prop :=
  ∃ position candidates kind, format[position]? = some candidates ∧ kind ∈ candidates ∧
    operand = .atSlot kind position

/-- The operands that bind a format are admitted by it if the fixed ones are. -/
theorem Format.Binds.admits {format : Format} {fixed : List (Nat × Kind)} {key : List Operand}
    (h : format.Binds fixed key)
    (hfixed : ∀ entry ∈ fixed, format.Admits (.atSlot entry.2 entry.1)) :
    ∀ operand ∈ key, format.Admits operand := by
  intro operand ho
  obtain ⟨position, hp⟩ := List.mem_iff_getElem?.1 ho
  obtain ⟨candidates, hc⟩ : ∃ candidates, format[position]? = some candidates :=
    ⟨_, List.getElem?_eq_getElem (h.1 ▸ (List.getElem?_eq_some_iff.1 hp).1)⟩
  obtain ⟨kind, hkey, hkind⟩ := h.2 position candidates hc
  obtain rfl := Option.some.inj (hp.symm.trans hkey)
  cases hl : fixed.lookup position with
  | none =>
    rw [hl, Option.none_or] at hkind
    exact ⟨position, candidates, kind, hc, KindSet.mem_of_resolve hkind, rfl⟩
  | some k =>
    rw [hl, Option.some_or] at hkind
    obtain rfl := Option.some.inj hkind
    obtain ⟨before, after, hsplit, _⟩ := List.lookup_eq_some_iff.1 hl
    exact hfixed (position, k) (by simp [hsplit])

/-! ## Placements and their order -/

/-- Where the operands of a replacement stand in a matcher. -/
inductive Placement
  /-- Nowhere: the replacement has no operands. -/
  | whole
  /-- At one slot. -/
  | slot (position : Nat)
  /-- At two slots, the one of the left operand first. -/
  | pair (left right : Nat)
  deriving DecidableEq, Repr

/-- Slots come in order; pairs come by the later slot, then by the earlier one, then the pair in
order before the exchanged one. -/
def Placement.Before : Placement → Placement → Prop
  | slot a, slot b => a < b
  | pair l r, pair l' r' =>
    max l r < max l' r' ∨ max l r = max l' r' ∧
      (min l r < min l' r' ∨ min l r = min l' r' ∧ l < r ∧ r' < l')
  | _, _ => False

/-- Placed replacements come in the order of the replacements, then of the placements. -/
def Placement.Precedes (a b : Operator × Placement) : Prop :=
  compare a.1 b.1 = .lt ∨ a.1 = b.1 ∧ a.2.Before b.2

theorem Placement.not_precedes_self (a : Operator × Placement) : ¬ Precedes a a := by
  rintro (hlt | ⟨_, hbefore⟩)
  · exact Increasing.not_lt_self a.1 hlt
  · cases h : a.2 with
    | whole => simp [h, Before] at hbefore
    | slot position => simp [h, Before] at hbefore
    | pair l r =>
      simp only [h, Before] at hbefore
      omega

/-- The pairs of different slots, exchanged ones left out if the operands commute. -/
theorem mem_slotPairs {commutes : Bool} {count l r : Nat} :
    (l, r) ∈ slotPairs commutes count ↔
      l < count ∧ r < count ∧ (l < r ∨ r < l ∧ commutes = false) := by
  simp only [slotPairs, List.mem_flatMap, List.mem_range, List.mem_cons, Prod.mk.injEq]
  constructor
  · rintro ⟨later, hlater, earlier, hearlier, ⟨rfl, rfl⟩ | hm⟩
    · omega
    · cases commutes with
      | true => simp at hm
      | false =>
        simp only [Bool.false_eq_true, if_false, List.mem_singleton, Prod.mk.injEq] at hm
        obtain ⟨rfl, rfl⟩ := hm
        exact ⟨hlater, by omega, Or.inr ⟨hearlier, rfl⟩⟩
  · rintro ⟨hl, hr, hlr | ⟨hrl, rfl⟩⟩
    · exact ⟨r, hr, l, hlr, Or.inl ⟨rfl, rfl⟩⟩
    · exact ⟨l, hl, r, hrl, Or.inr (by simp)⟩

/-- The pairs of slots come in the order of placements. -/
theorem pairwise_slotPairs (commutes : Bool) (count : Nat) :
    ((slotPairs commutes count).map fun p => Placement.pair p.1 p.2).Pairwise
      Placement.Before := by
  -- the pairs of two slots are the one in order and at most the exchanged one
  have hpairs : ∀ {earlier later : Nat} {p : Nat × Nat},
      p ∈ (earlier, later) :: (if commutes then [] else [(later, earlier)]) →
        p = (earlier, later) ∨ p = (later, earlier) := by
    intro earlier later p hp
    cases commutes with
    | true => exact Or.inl (by simpa using hp)
    | false => simpa using hp
  rw [List.pairwise_map, slotPairs, List.pairwise_flatMap]
  constructor
  · intro later _
    rw [List.pairwise_flatMap]
    constructor
    · intro earlier hearlier
      have hlt := List.mem_range.1 hearlier
      cases commutes with
      | true => simp
      | false =>
        simp only [Bool.false_eq_true, if_false, List.pairwise_pair, Placement.Before]
        omega
    · refine List.Pairwise.imp_of_mem ?_ List.pairwise_lt_range
      intro e e' he he' hlt p hp q hq
      have hel := List.mem_range.1 he
      have hel' := List.mem_range.1 he'
      rcases hpairs hp with rfl | rfl <;> rcases hpairs hq with rfl | rfl <;>
        simp only [Placement.Before] <;> omega
  · refine List.pairwise_lt_range.imp ?_
    intro later later' hlt p hp q hq
    obtain ⟨e, he, hp⟩ := List.mem_flatMap.1 hp
    obtain ⟨e', he', hq⟩ := List.mem_flatMap.1 hq
    have hel := List.mem_range.1 he
    have hel' := List.mem_range.1 he'
    rcases hpairs hp with rfl | rfl <;> rcases hpairs hq with rfl | rfl <;>
      simp only [Placement.Before] <;> omega

namespace Taxonomy

/-! ## Fitting placements and their bindings -/

/-- A replacement fits at a placement: the slots that it takes have kinds that it admits, the pair
is exchanged only if its operands do not commute, and every other slot has some kind. -/
def Fits (t : Taxonomy) (matcher replacer : Operator) : Placement → Prop
  | .whole => t.format replacer = [] ∧ (t.format matcher).OpenBeside []
  | .slot position =>
    (∃ required kind, t.format replacer = [required] ∧
      resolveAt (t.format matcher) required position = some kind) ∧
    (t.format matcher).OpenBeside [position]
  | .pair l r =>
    (l < r ∨ r < l ∧ t.isCommutative replacer = false) ∧
    (∃ left right leftKind rightKind, t.format replacer = [left, right] ∧
      resolveAt (t.format matcher) left l = some leftKind ∧
      resolveAt (t.format matcher) right r = some rightKind) ∧
    (t.format matcher).OpenBeside [l, r]

/-- The binding of a matcher to a replacement at a placement: the key has the kinds that the
replacement resolves at the slots it takes, and the replacement refers to these slots. -/
inductive BoundAt (t : Taxonomy) (matcher replacer : Operator) : Placement → Binding → Prop
  /-- A replacement without operands leaves the matcher as general as it is. -/
  | whole {key : List Operand} (hformat : t.format replacer = [])
      (hkey : (t.format matcher).Binds [] key) :
      BoundAt t matcher replacer .whole ⟨⟨matcher, key⟩, ⟨replacer, []⟩⟩
  /-- A replacement with one operand narrows the slot that it takes. -/
  | slot {required : KindSet} {position : Nat} {kind : Kind} {key : List Operand}
      (hformat : t.format replacer = [required])
      (hkind : resolveAt (t.format matcher) required position = some kind)
      (hkey : (t.format matcher).Binds [(position, kind)] key) :
      BoundAt t matcher replacer (.slot position)
        ⟨⟨matcher, key⟩, ⟨replacer, [.atSlot kind position]⟩⟩
  /-- A replacement with two operands narrows both slots that it takes. -/
  | pair {left right : KindSet} {l r : Nat} {leftKind rightKind : Kind} {key : List Operand}
      (hformat : t.format replacer = [left, right])
      (hleft : resolveAt (t.format matcher) left l = some leftKind)
      (hright : resolveAt (t.format matcher) right r = some rightKind)
      (hkey : (t.format matcher).Binds [(l, leftKind), (r, rightKind)] key) :
      BoundAt t matcher replacer (.pair l r)
        ⟨⟨matcher, key⟩, ⟨replacer, [.atSlot leftKind l, .atSlot rightKind r]⟩⟩

/-- The placements that a replacement might have, in order. -/
def placements (t : Taxonomy) (matcher replacer : Operator) : List Placement :=
  match t.format replacer with
  | [] => [.whole]
  | [_] => (List.range (t.format matcher).length).map .slot
  | [_, _] => (slotPairs (t.isCommutative replacer) (t.format matcher).length).map fun p =>
      .pair p.1 p.2
  | _ => []

/-- The binding at a placement, if the replacement has one there. -/
def bindAt? (t : Taxonomy) (matcher replacer : Operator) (placement : Placement) :
    Option Binding :=
  match placement, t.format replacer with
  | .whole, [] => ((t.format matcher).bind []).map fun key => ⟨⟨matcher, key⟩, ⟨replacer, []⟩⟩
  | .slot position, [required] => do
    let kind ← resolveAt (t.format matcher) required position
    let key ← (t.format matcher).bind [(position, kind)]
    return ⟨⟨matcher, key⟩, ⟨replacer, [.atSlot kind position]⟩⟩
  | .pair l r, [left, right] => do
    let leftKind ← resolveAt (t.format matcher) left l
    let rightKind ← resolveAt (t.format matcher) right r
    let key ← (t.format matcher).bind [(l, leftKind), (r, rightKind)]
    return ⟨⟨matcher, key⟩, ⟨replacer, [.atSlot leftKind l, .atSlot rightKind r]⟩⟩
  | _, _ => none

variable {t : Taxonomy} {matcher replacer : Operator}

/-- The bindings of a replacement arise placement by placement; three operands are too many to
place. -/
theorem slotBindings_eq_ok_iff {bs : List Binding} :
    t.slotBindings matcher replacer = .ok bs ↔ (t.format replacer).length ≤ 2 ∧
      bs = (t.placements matcher replacer).filterMap (t.bindAt? matcher replacer) := by
  rcases hf : t.format replacer with _ | ⟨a, _ | ⟨b, _ | ⟨c, rest⟩⟩⟩
  · cases hkey : (t.format matcher).bind [] <;>
      simp [slotBindings, placements, hf, bindAt?, hkey, eq_comm]
  · simp only [slotBindings, placements, hf, List.filterMap_map, Function.comp_def, bindAt?]
    simp [eq_comm]
  · simp only [slotBindings, placements, hf, List.filterMap_map, Function.comp_def, bindAt?]
    simp [eq_comm]
  · simp [slotBindings, hf]

/-- The binding at a placement is the one that the replacement has there. -/
theorem bindAt?_eq_some_iff {placement : Placement} {b : Binding} :
    t.bindAt? matcher replacer placement = some b ↔ t.BoundAt matcher replacer placement b := by
  constructor
  · intro h
    unfold bindAt? at h
    split at h
    next hf =>
      obtain ⟨key, hkey, rfl⟩ := Option.map_eq_some_iff.1 h
      exact .whole hf (Format.bind_eq_some_iff.1 hkey)
    next position required hf =>
      simp only [Option.bind_eq_bind, Option.bind_eq_some_iff] at h
      obtain ⟨kind, hkind, key, hkey, he⟩ := h
      obtain rfl := Option.some.inj he
      exact .slot hf hkind (Format.bind_eq_some_iff.1 hkey)
    next l r left right hf =>
      simp only [Option.bind_eq_bind, Option.bind_eq_some_iff] at h
      obtain ⟨leftKind, hleft, rightKind, hright, key, hkey, he⟩ := h
      obtain rfl := Option.some.inj he
      exact .pair hf hleft hright (Format.bind_eq_some_iff.1 hkey)
    next => simp at h
  · intro h
    cases h with
    | whole hf hkey => simp [bindAt?, hf, Format.bind_eq_some_iff.2 hkey]
    | slot hf hkind hkey => simp [bindAt?, hf, hkind, Format.bind_eq_some_iff.2 hkey]
    | pair hf hleft hright hkey =>
      simp [bindAt?, hf, hleft, hright, Format.bind_eq_some_iff.2 hkey]

/-- The placements of a replacement are tried in order. -/
theorem pairwise_placements (t : Taxonomy) (matcher replacer : Operator) :
    (t.placements matcher replacer).Pairwise Placement.Before := by
  unfold placements
  split
  · exact List.pairwise_singleton _ _
  · exact List.pairwise_map.2 List.pairwise_lt_range
  · exact pairwise_slotPairs _ _
  · exact List.Pairwise.nil

/-- A kind is only resolved at a slot that the format has. -/
theorem lt_length_of_resolveAt {format : Format} {required : KindSet} {position : Nat}
    {kind : Kind} (h : resolveAt format required position = some kind) :
    position < format.length := by
  obtain ⟨candidates, hc, _⟩ := Option.bind_eq_some_iff.1 h
  exact (List.getElem?_eq_some_iff.1 hc).1

theorem admits_of_resolveAt {format : Format} {required : KindSet} {position : Nat}
    {kind : Kind} (h : resolveAt format required position = some kind) :
    format.Admits (.atSlot kind position) := by
  obtain ⟨candidates, hc, hk⟩ := Option.bind_eq_some_iff.1 h
  exact ⟨position, candidates, kind, hc, KindSet.mem_of_resolve hk, rfl⟩

/-- The operands of a replacement are admitted by the matcher. -/
theorem BoundAt.admits_replacement {placement : Placement} {b : Binding}
    (h : t.BoundAt matcher replacer placement b) :
    ∀ operand ∈ b.replacement.operands, (t.format matcher).Admits operand := by
  cases h with
  | whole hf hkey => simp
  | slot hf hkind hkey => simpa using admits_of_resolveAt hkind
  | pair hf hleft hright hkey =>
    simpa using ⟨admits_of_resolveAt hleft, admits_of_resolveAt hright⟩

/-- The operands of a key are admitted by the matcher. -/
theorem BoundAt.admits_key {placement : Placement} {b : Binding}
    (h : t.BoundAt matcher replacer placement b) :
    ∀ operand ∈ b.key.operands, (t.format matcher).Admits operand := by
  cases h with
  | whole hf hkey => exact hkey.admits (by simp)
  | slot hf hkind hkey => exact hkey.admits (by simpa using admits_of_resolveAt hkind)
  | pair hf hleft hright hkey =>
    exact hkey.admits (by simpa using ⟨admits_of_resolveAt hleft, admits_of_resolveAt hright⟩)

/-- A fitting placement has a binding. -/
theorem exists_boundAt_of_fits {placement : Placement} (h : t.Fits matcher replacer placement) :
    ∃ b, t.BoundAt matcher replacer placement b := by
  have hkey : ∀ fixed : List (Nat × Kind),
      (t.format matcher).OpenBeside (fixed.map Prod.fst) →
        ∃ key, (t.format matcher).Binds fixed key := by
    intro fixed hopen
    obtain ⟨key, hkey⟩ := Option.isSome_iff_exists.1 (Format.isSome_bind_iff.2 hopen)
    exact ⟨key, Format.bind_eq_some_iff.1 hkey⟩
  cases placement with
  | whole =>
    obtain ⟨hf, hopen⟩ := h
    obtain ⟨key, hkey⟩ := hkey [] hopen
    exact ⟨_, .whole hf hkey⟩
  | slot position =>
    obtain ⟨⟨required, kind, hf, hkind⟩, hopen⟩ := h
    obtain ⟨key, hkey⟩ := hkey [(position, kind)] hopen
    exact ⟨_, .slot hf hkind hkey⟩
  | pair l r =>
    obtain ⟨_, ⟨left, right, leftKind, rightKind, hf, hleft, hright⟩, hopen⟩ := h
    obtain ⟨key, hkey⟩ := hkey [(l, leftKind), (r, rightKind)] hopen
    exact ⟨_, .pair hf hleft hright hkey⟩

/-- A fitting placement is tried. -/
theorem mem_placements_of_fits {placement : Placement} (h : t.Fits matcher replacer placement) :
    placement ∈ t.placements matcher replacer := by
  cases placement with
  | whole => simp [placements, h.1]
  | slot position =>
    obtain ⟨⟨required, kind, hf, hkind⟩, _⟩ := h
    simp [placements, hf, lt_length_of_resolveAt hkind]
  | pair l r =>
    obtain ⟨hlr, ⟨left, right, leftKind, rightKind, hf, hleft, hright⟩, _⟩ := h
    have hm : (l, r) ∈ slotPairs (t.isCommutative replacer) (t.format matcher).length :=
      mem_slotPairs.2 ⟨lt_length_of_resolveAt hleft, lt_length_of_resolveAt hright, hlr⟩
    simp only [placements, hf]
    exact List.mem_map_of_mem (f := fun p => Placement.pair p.1 p.2) hm

/-- The placements at which a replacement has a binding are those where it fits. -/
theorem fits_iff {placement : Placement} :
    t.Fits matcher replacer placement ↔ placement ∈ t.placements matcher replacer ∧
      (t.bindAt? matcher replacer placement).isSome = true := by
  constructor
  · intro h
    obtain ⟨b, hb⟩ := exists_boundAt_of_fits h
    exact ⟨mem_placements_of_fits h, by simp [bindAt?_eq_some_iff.2 hb]⟩
  · rintro ⟨hm, hb⟩
    obtain ⟨b, hb⟩ := Option.isSome_iff_exists.1 hb
    cases bindAt?_eq_some_iff.1 hb with
    | whole hf hkey => exact ⟨hf, hkey.openBeside⟩
    | slot hf hkind hkey => exact ⟨⟨_, _, hf, hkind⟩, hkey.openBeside⟩
    | pair hf hleft hright hkey =>
      simp only [placements, hf] at hm
      obtain ⟨⟨l, r⟩, hp, he⟩ := List.mem_map.1 hm
      cases he
      exact ⟨(mem_slotPairs.1 hp).2.2, ⟨_, _, _, _, hf, hleft, hright⟩, hkey.openBeside⟩

end Taxonomy

end MutationRules
