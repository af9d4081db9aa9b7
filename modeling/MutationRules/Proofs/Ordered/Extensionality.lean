import Mathlib.Data.List.Sort
import MutationRules.Ordered.Map

/-!
# Extensionality of ordered collections

Lists in increasing order are equal if they have the same members. So an ordered set is
determined by membership, and an ordered map by look-up, whatever the order or repetition
in which members and entries were given.
-/

namespace MutationRules

/-- Lists in the increasing order of a key are equal if they have the same entries. -/
theorem Increasing.eq_of_pairwise_key {α κ : Type _} [Ord κ] [Std.TransOrd κ] (key : α → κ)
    {xs ys : List α} (hx : xs.Pairwise fun a b => compare (key a) (key b) = .lt)
    (hy : ys.Pairwise fun a b => compare (key a) (key b) = .lt) (h : ∀ a, a ∈ xs ↔ a ∈ ys) :
    xs = ys := by
  have : Std.Irrefl fun a b => compare (key a) (key b) = .lt := ⟨fun a => not_lt_self (key a)⟩
  have : Std.Antisymm fun a b => compare (key a) (key b) = .lt :=
    ⟨fun _ _ hab hba => absurd (Std.TransCmp.lt_trans hab hba) (not_lt_self _)⟩
  exact hx.eq_of_mem_iff hy h

/-- Increasing lists with the same members are equal. -/
theorem Increasing.eq_of_mem_iff {α : Type _} [Ord α] [Std.TransOrd α] {xs ys : List α}
    (hx : Increasing xs) (hy : Increasing ys) (h : ∀ a, a ∈ xs ↔ a ∈ ys) : xs = ys :=
  eq_of_pairwise_key id hx hy h

/-- Membership determines the set. -/
@[ext] theorem OrderedSet.ext {α : Type _} [Ord α] [Std.TransOrd α] {s t : OrderedSet α}
    (h : ∀ a, a ∈ s ↔ a ∈ t) : s = t := by
  have hlist : s.toList = t.toList := s.increasing.eq_of_mem_iff t.increasing h
  cases s
  cases t
  congr

/-- Look-up determines the map. -/
@[ext] theorem OrderedMap.ext {κ β : Type _} [Ord κ] [Std.TransOrd κ] [Std.LawfulEqOrd κ]
    {s t : OrderedMap κ β} (h : ∀ k, s.get? k = t.get? k) : s = t := by
  have hentries : s.entries = t.entries := by
    apply Increasing.eq_of_pairwise_key Prod.fst (List.pairwise_map.1 s.increasing)
      (List.pairwise_map.1 t.increasing)
    intro e
    rw [OrderedMap.mem_entries_iff, OrderedMap.mem_entries_iff, h]
  cases s
  cases t
  congr

end MutationRules
