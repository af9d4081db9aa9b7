import Mathlib.Data.List.Dedup
import Mathlib.Order.Defs.Unbundled
import MutationRules.Proofs.Operand.Order

/-!
# Members of a set of kinds

The comparison of kinds tells any two of them apart, so a set loses none to another that
compares equal, and holds none twice. What it lists depends on which kinds it was given,
not on their order or repetition.
-/

namespace MutationRules

/-! ## Sets of any ordered type -/

section Ordered

variable {α : Type} [Ord α] [Std.TransOrd α] [Std.LawfulEqOrd α]

/-- A comparison in which only equal things compare equal is a linear order. -/
theorem isLinearOrder_isLE_compare : IsLinearOrder α fun a b => (compare a b).isLE = true where
  refl a := by
    have hself : compare a a = .eq := Std.ReflCmp.compare_self
    rw [hself, Ordering.isLE_eq]
  trans a b c := Std.TransCmp.isLE_trans
  antisymm a b hab hba := Std.LawfulEqCmp.eq_of_compare (Std.OrientedCmp.isLE_antisymm hab hba)
  total a b := by
    have hswap : compare b a = (compare a b).swap := Std.OrientedCmp.eq_swap
    rw [hswap]
    cases compare a b with
    | lt | eq => exact Or.inl rfl
    | gt => exact Or.inr rfl

namespace OrderedSet

/-- Lists make the same set if they have the same entries. -/
theorem ofList_eq_iff {xs ys : List α} : ofList xs = ofList ys ↔ ∀ a, a ∈ xs ↔ a ∈ ys := by
  constructor
  · intro h a
    rw [← mem_ofList, h, mem_ofList]
  · intro h
    ext a
    rw [mem_ofList, h, mem_ofList]

/-- A union is the only set of the members of both sets. -/
theorem eq_union_iff {s t u : OrderedSet α} : u = s.union t ↔ ∀ a, a ∈ u ↔ a ∈ s ∨ a ∈ t := by
  constructor
  · rintro rfl a
    exact mem_union
  · intro h
    ext a
    rw [h, mem_union]

/-- The set of a list keeps each entry once. -/
theorem toList_ofList_perm [DecidableEq α] (xs : List α) : (ofList xs).toList.Perm xs.dedup := by
  rw [List.perm_ext_iff_of_nodup (ofList xs).increasing.nodup xs.nodup_dedup]
  intro a
  rw [mem_toList, mem_ofList, List.mem_dedup]

end OrderedSet

end Ordered

/-! ## Sets of kinds -/

namespace KindSet

/-- A set made of a list of kinds lists each of them once, in order. -/
theorem pairwise_precedes_ofList (kinds : List Kind) :
    (OrderedSet.ofList kinds).toList.Pairwise Kind.Precedes :=
  (OrderedSet.ofList kinds).increasing.imp Kind.compare_eq_lt_iff.1

/-- Kinds are in a linear order, in which only equal kinds compare equal and a category is directly
followed by the literal that is spelled like it, from which it differs. So a list of kinds makes the
set that lists its distinct entries in this order, however they are arranged or repeated, and the
union of two sets is the set of the members of both. -/
theorem members_in_order :
    (IsLinearOrder Kind fun a b => (compare a b).isLE = true) ∧
    (∀ a b : Kind, (compare a b = .lt ↔ a.Precedes b) ∧ (compare a b = .eq ↔ a = b) ∧
      (compare a b = .gt ↔ b.Precedes a)) ∧
    (∀ category ∈ Kind.categories, category ≠ .literal category.token ∧
      category.IsNext (.literal category.token)) ∧
    (∀ kinds : List Kind, (OrderedSet.ofList kinds).toList.Pairwise Kind.Precedes ∧
      (OrderedSet.ofList kinds).toList.Perm kinds.dedup) ∧
    (∀ kinds kinds' : List Kind, OrderedSet.ofList kinds = OrderedSet.ofList kinds' ↔
      ∀ kind, kind ∈ kinds ↔ kind ∈ kinds') ∧
    ∀ s t u : KindSet, u = s.union t ↔ ∀ kind, kind ∈ u ↔ kind ∈ s ∨ kind ∈ t := by
  refine ⟨isLinearOrder_isLE_compare, fun a b => ⟨Kind.compare_eq_lt_iff, ?_, ?_⟩,
    fun category hcategory => ⟨?_, Kind.isNext_literal hcategory⟩,
    fun kinds => ⟨pairwise_precedes_ofList kinds, OrderedSet.toList_ofList_perm kinds⟩,
    fun kinds kinds' => OrderedSet.ofList_eq_iff, fun s t u => OrderedSet.eq_union_iff⟩
  · exact Std.LawfulEqCmp.compare_eq_iff_eq
  · exact Kind.compare_eq_gt_iff
  · intro h
    rw [h] at hcategory
    simp [Kind.categories] at hcategory

/-- Two categories with the literals that are spelled like them, and a literal before them all. -/
def twins : List Kind :=
  [.literal "V", .literal "@", .arithVar, .arithExpr, .literal "@", .literal "-1", .arithVar]

/-- A literal that is spelled like a category is neither lost to it nor listed before it. -/
theorem twins_in_order :
    Kind.arithVar ∈ Kind.categories ∧ Kind.arithVar.IsNext (.literal "V") ∧
    (OrderedSet.ofList twins).toList =
      [.literal "-1", .arithExpr, .literal "@", .arithVar, .literal "V"] ∧
    (OrderedSet.ofList twins).toList.Pairwise Kind.Precedes ∧
    (OrderedSet.ofList twins).toList.Perm twins.dedup ∧
    (∀ kind, kind ∈ twins ↔ kind ∈ twins.reverse) ∧
    OrderedSet.ofList twins = OrderedSet.ofList twins.reverse := by
  obtain ⟨_, _, hnext, hlists, hsame, _⟩ := members_in_order
  have hcategory : Kind.arithVar ∈ Kind.categories := by decide
  have hmem : ∀ kind, kind ∈ twins ↔ kind ∈ twins.reverse := fun _ => List.mem_reverse.symm
  exact ⟨hcategory, (hnext _ hcategory).2, by decide, (hlists twins).1, (hlists twins).2, hmem,
    (hsame _ _).2 hmem⟩

end KindSet

end MutationRules
