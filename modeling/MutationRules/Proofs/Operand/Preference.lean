import Mathlib.Data.List.Nodup
import MutationRules.Operand.Preference
import MutationRules.Proofs.Operand.Order
import MutationRules.Proofs.Traversal

/-!
# The preferred kind of a slot

A slot is bound to the general category that marks its kinds, if the replacement admits this
category, and to the first admitted kind in order if not; a second general category has no
advantage then. A replacement that admits more kinds is bound at the same place in the order
of preference or before it.
-/

namespace MutationRules

/-- What passes a weaker test is found at the same place of a list or before it. -/
theorem exists_find?_idxOf_le {α : Type} [DecidableEq α] {xs : List α} {p q : α → Bool}
    (hpq : ∀ x ∈ xs, p x = true → q x = true) {a : α} (ha : xs.find? p = some a) :
    ∃ b, xs.find? q = some b ∧ xs.idxOf b ≤ xs.idxOf a := by
  induction xs with
  | nil => simp at ha
  | cons x xs ih =>
    rw [List.forall_mem_cons] at hpq
    by_cases hq : q x = true
    · exact ⟨x, List.find?_cons_of_pos hq, by simp⟩
    · have hp : ¬ p x = true := fun hp => hq (hpq.1 hp)
      rw [List.find?_cons_of_neg hp] at ha
      obtain ⟨b, hb, hle⟩ := ih hpq.2 ha
      have hxa : x ≠ a := by
        rintro rfl
        exact hp (List.find?_some ha)
      have hxb : x ≠ b := by
        rintro rfl
        exact hq (List.find?_some hb)
      refine ⟨b, (List.find?_cons_of_neg hq).trans hb, ?_⟩
      rw [List.idxOf_cons_ne xs hxb, List.idxOf_cons_ne xs hxa]
      omega

/-- An entry that fails a test is found nowhere, so it may be put first. -/
theorem find?_cons_filter_ne {α : Type} [DecidableEq α] {xs : List α} {p : α → Bool} {a : α}
    (ha : ¬ p a = true) : (a :: xs.filter (· != a)).find? p = xs.find? p := by
  have htests : (fun x => decide ((x != a) = true ∧ p x = true)) = p := by
    ext x
    by_cases hx : x = a
    · simp [hx, ha]
    · simp [hx]
  rw [List.find?_cons_of_neg ha, List.find?_filter, htests]

namespace KindSet

variable {candidates : KindSet} {required? wider? : Option KindSet} {kind : Kind}

/-! ## What is preferred -/

/-- Whether a replacement lets a slot be bound to a kind: the kind is one of those that it requires,
if it requires any. -/
def Permits (required? : Option KindSet) (kind : Kind) : Prop :=
  ∀ required ∈ required?, kind ∈ required

/-- Whether a slot may be bound to a kind. -/
def Admits (candidates : KindSet) (required? : Option KindSet) (kind : Kind) : Prop :=
  kind ∈ candidates ∧ Permits required? kind

/-- Whether a kind marks a slot: it is any arithmetic expression, or any address expression in a
slot without the former. -/
def IsMarker (candidates : KindSet) (kind : Kind) : Prop :=
  kind ∈ candidates ∧ (kind = .arithExpr ∨ kind = .addressExpr ∧ .arithExpr ∉ candidates)

/-- Whether a kind is the one to be preferred: an admitted marker, or the first of the admitted
kinds if they have no marker among them. -/
def IsPreferred (candidates : KindSet) (required? : Option KindSet) (kind : Kind) : Prop :=
  candidates.Admits required? kind ∧
    (candidates.IsMarker kind ∨
      (∀ marker, candidates.IsMarker marker → ¬ Permits required? marker) ∧
        ∀ other, candidates.Admits required? other → other = kind ∨ kind.Precedes other)

theorem all_mem_iff_permits :
    (required?.all fun required => decide (kind ∈ required)) = true ↔ Permits required? kind := by
  cases required? <;> simp [Permits]

/-! ## The order of preference -/

theorem marker?_eq_some_iff : candidates.marker? = some kind ↔ candidates.IsMarker kind := by
  rw [marker?, IsMarker]
  by_cases harith : Kind.arithExpr ∈ candidates
  · rw [List.find?_cons_of_pos (by simpa using harith), Option.some.injEq]
    constructor
    · rintro rfl
      exact ⟨harith, Or.inl rfl⟩
    · rintro ⟨_, rfl | ⟨_, hnot⟩⟩
      · rfl
      · exact absurd harith hnot
  · rw [List.find?_cons_of_neg (by simpa using harith), List.find?_singleton]
    constructor
    · intro h
      obtain ⟨haddress, hkind⟩ := Option.ite_none_right_eq_some.1 h
      obtain rfl := Option.some.inj hkind
      exact ⟨by simpa using haddress, Or.inr ⟨rfl, harith⟩⟩
    · rintro ⟨hmem, rfl | ⟨rfl, _⟩⟩
      · exact absurd hmem harith
      · rw [if_pos (by simpa using hmem)]

/-- The order of preference lists the members, each once. -/
theorem preferenceOrder_perm (candidates : KindSet) :
    candidates.preferenceOrder.Perm candidates.toList := by
  unfold preferenceOrder
  split
  next marker h =>
    rw [← List.Nodup.erase_eq_filter candidates.increasing.nodup]
    exact (List.perm_cons_erase (mem_of_marker? h)).symm
  next => exact List.Perm.refl _

/-! ## The resolved kind -/

theorem resolve_eq_none_iff :
    candidates.resolve required? = none ↔ ∀ kind ∈ candidates, ¬ Permits required? kind := by
  simp only [resolve, List.find?_eq_none, mem_preferenceOrder, all_mem_iff_permits]

/-- The first member that passes a test is the one that comes before all others that do. -/
theorem find?_eq_some_iff_precedes {p : Kind → Bool} :
    candidates.toList.find? p = some kind ↔ (kind ∈ candidates ∧ p kind = true) ∧
      ∀ other, other ∈ candidates ∧ p other = true → other = kind ∨ kind.Precedes other := by
  have hsplit := exists_split_iff_of_pairwise
    (fun hab hba => Increasing.not_lt_self _ (Std.TransCmp.lt_trans hab hba))
    candidates.increasing (Q := fun other => (!p other) = true) (x := kind)
  have hlater : ∀ other, (compare other kind = .lt → (!p other) = true) ↔
      (p other = true → other = kind ∨ kind.Precedes other) := by
    intro other
    rw [Kind.compare_eq_lt_iff, ← Kind.not_precedes_iff]
    cases p other <;> simp
  rw [List.find?_eq_some_iff_append, hsplit, and_left_comm, and_assoc]
  simp only [hlater, OrderedSet.mem_toList, and_imp]

/-- A slot has one marker at most. -/
theorem IsMarker.unique {marker : Kind} (h : candidates.IsMarker marker)
    (h' : candidates.IsMarker kind) : kind = marker :=
  Option.some.inj ((marker?_eq_some_iff.2 h').symm.trans (marker?_eq_some_iff.2 h))

/-- A permitted marker is resolved. -/
theorem IsMarker.resolve_eq (h : candidates.IsMarker kind) (hpermits : Permits required? kind) :
    candidates.resolve required? = some kind := by
  have hmarker := marker?_eq_some_iff.2 h
  simp only [resolve, preferenceOrder, hmarker]
  exact List.find?_cons_of_pos (all_mem_iff_permits.2 hpermits)

/-- Without a permitted marker the first permitted member in order is resolved. -/
theorem resolve_eq_find? (h : ∀ marker, candidates.IsMarker marker → ¬ Permits required? marker) :
    candidates.resolve required? =
      candidates.toList.find? fun kind => required?.all fun required => kind ∈ required := by
  cases hmarker : candidates.marker? with
  | none => simp only [resolve, preferenceOrder, hmarker]
  | some marker =>
    have hrefused : ¬ (required?.all fun required => decide (marker ∈ required)) = true :=
      fun hp => h marker (marker?_eq_some_iff.1 hmarker) (all_mem_iff_permits.1 hp)
    simp only [resolve, preferenceOrder, hmarker]
    exact find?_cons_filter_ne hrefused

/-- A kind is resolved if it is the one to be preferred. -/
theorem resolve_eq_some_iff :
    candidates.resolve required? = some kind ↔ candidates.IsPreferred required? kind := by
  by_cases hmarked : ∃ marker, candidates.IsMarker marker ∧ Permits required? marker
  · obtain ⟨marker, hmarker, hpermits⟩ := hmarked
    rw [hmarker.resolve_eq hpermits, Option.some.injEq]
    constructor
    · rintro rfl
      exact ⟨⟨hmarker.1, hpermits⟩, Or.inl hmarker⟩
    · rintro ⟨_, hkind | ⟨hrefused, _⟩⟩
      · exact (hmarker.unique hkind).symm
      · exact absurd hpermits (hrefused marker hmarker)
  · have hrefused : ∀ marker, candidates.IsMarker marker → ¬ Permits required? marker :=
      fun marker hmarker hpermits => hmarked ⟨marker, hmarker, hpermits⟩
    rw [resolve_eq_find? hrefused, find?_eq_some_iff_precedes]
    simp only [all_mem_iff_permits, IsPreferred]
    constructor
    · rintro ⟨hadmits, hfirst⟩
      exact ⟨hadmits, Or.inr ⟨hrefused, hfirst⟩⟩
    · rintro ⟨hadmits, hmarker | ⟨_, hfirst⟩⟩
      · exact absurd hadmits.2 (hrefused kind hmarker)
      · exact ⟨hadmits, hfirst⟩

/-- A replacement that permits more kinds is bound at the same place of the order or before it. -/
theorem exists_resolve_idxOf_le (h : ∀ kind, Permits required? kind → Permits wider? kind)
    (hkind : candidates.resolve required? = some kind) :
    ∃ kind', candidates.resolve wider? = some kind' ∧
      candidates.preferenceOrder.idxOf kind' ≤ candidates.preferenceOrder.idxOf kind := by
  refine exists_find?_idxOf_le (fun other _ hother => ?_) hkind
  exact all_mem_iff_permits.2 (h other (all_mem_iff_permits.1 hother))

/-- Preference orders the members, each once, and resolves a slot if a member is permitted: to its
marker if this is permitted, and else to the first permitted member. To permit more never moves
what is resolved towards the end of the order. -/
theorem resolve_prefers (candidates : KindSet) :
    candidates.preferenceOrder.Perm candidates.toList ∧
    (candidates.resolve none = none ↔ ∀ kind, kind ∉ candidates) ∧
    (∀ required, candidates.resolve (some required) = none ↔
      ∀ kind ∈ candidates, kind ∉ required) ∧
    (∀ required? kind, candidates.resolve required? = some kind ↔
      candidates.IsPreferred required? kind) ∧
    ∀ required? wider?, (∀ kind, Permits required? kind → Permits wider? kind) →
      ∀ kind, candidates.resolve required? = some kind →
        ∃ kind', candidates.resolve wider? = some kind' ∧
          candidates.preferenceOrder.idxOf kind' ≤ candidates.preferenceOrder.idxOf kind := by
  refine ⟨preferenceOrder_perm candidates, ?_, fun required => ?_,
    fun required? kind => resolve_eq_some_iff, fun required? wider? h kind hkind => ?_⟩
  · rw [resolve_eq_none_iff]
    simp [Permits]
  · rw [resolve_eq_none_iff]
    simp [Permits]
  · exact exists_resolve_idxOf_le h hkind

/-- A slot with both general categories and the literal that is spelled like the first. -/
def crowdedSlot : KindSet := .ofList [.addressExpr, .arithExpr, .literal "@"]

/-- Without the arithmetic category the literal that is spelled like it comes before the address
category, and with it the arithmetic category is resolved. -/
theorem crowdedSlot_prefers :
    crowdedSlot.preferenceOrder.Perm crowdedSlot.toList ∧
    (crowdedSlot.resolve (some (.ofList [.addressExpr, .literal "@"])) = some (.literal "@") ∧
      crowdedSlot.IsPreferred (some (.ofList [.addressExpr, .literal "@"])) (.literal "@")) ∧
    ∃ kind, crowdedSlot.resolve none = some kind ∧ kind = .arithExpr ∧
      crowdedSlot.preferenceOrder.idxOf kind ≤
        crowdedSlot.preferenceOrder.idxOf (.literal "@") := by
  obtain ⟨hperm, _, _, hprefers, hwider⟩ := resolve_prefers crowdedSlot
  have hliteral : crowdedSlot.resolve (some (.ofList [.addressExpr, .literal "@"])) =
      some (.literal "@") := by decide
  have hpermits : ∀ kind, Permits (some (.ofList [.addressExpr, .literal "@"])) kind →
      Permits none kind := by simp [Permits]
  obtain ⟨kind, hkind, hle⟩ := hwider _ _ hpermits _ hliteral
  have hmarker : crowdedSlot.resolve none = some .arithExpr := by decide
  exact ⟨hperm, ⟨hliteral, (hprefers _ _).1 hliteral⟩, kind, hkind,
    Option.some.inj (hkind.symm.trans hmarker), hle⟩

end KindSet

end MutationRules
