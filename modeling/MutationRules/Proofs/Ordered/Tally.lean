import Mathlib.Algebra.Ring.Nat
import Mathlib.Data.List.Basic
import Mathlib.Data.List.Induction
import MutationRules.Ordered.Map

/-!
# Tallies

A tally goes through items one by one and adds the weight of each to what is counted for its
key. In the end a key has the weight of all items with it, wherever they stand, and a key that
no item has is not counted.
-/

namespace MutationRules

/-- More for a key is as much more in the sum over some keys if the key is one of them. -/
theorem Increasing.sum_adjust_add {κ : Type} [Ord κ] [Std.LawfulEqOrd κ] (p : κ → Bool) (k : κ)
    (added : Nat) (entries : List (κ × Nat)) :
    (((adjust k (fun known? => known?.getD 0 + added) entries).filter fun e => p e.1).map
        Prod.snd).sum =
      ((entries.filter fun e => p e.1).map Prod.snd).sum + if p k then added else 0 := by
  induction entries with
  | nil => cases hk : p k <;> simp [adjust, hk]
  | cons e rest ih =>
    obtain ⟨k', n⟩ := e
    rw [adjust]
    cases hcompare : compare k k' with
    | lt => cases hk : p k <;> simp [hk, Nat.add_comm]
    | eq =>
      obtain rfl := Std.LawfulEqCmp.eq_of_compare hcompare
      cases hk : p k <;> simp [hk]; omega
    | gt =>
      cases hk' : p k' with
      | false => simpa [hk'] using ih
      | true => simp [hk', ih]; omega

namespace OrderedMap

/-- The sum of the numbers that a map holds for some keys. -/
def sumWhere {κ : Type} [Ord κ] (m : OrderedMap κ Nat) (p : κ → Bool) : Nat :=
  ((m.entries.filter fun e => p e.1).map Prod.snd).sum

theorem sum_values {κ : Type} [Ord κ] (m : OrderedMap κ Nat) :
    m.values.sum = m.sumWhere fun _ => true := by
  rw [sumWhere, List.filter_true]
  rfl

variable {α κ : Type} [Ord κ] [Std.TransOrd κ] [Std.LawfulEqOrd κ] {key : α → κ}
  {weight : α → Nat}

/-- The weight of the items of each key. -/
def tally (key : α → κ) (weight : α → Nat) (items : List α) : OrderedMap κ Nat :=
  items.foldl (fun counts x => counts.adjust (key x) fun known? => known?.getD 0 + weight x) ∅

theorem tally_concat (items : List α) (x : α) : tally key weight (items ++ [x]) =
    (tally key weight items).adjust (key x) fun known? => known?.getD 0 + weight x := by
  rw [tally, List.foldl_append]
  rfl

/-- What is counted for some keys is the weight of the items with one of them. -/
theorem sumWhere_tally (items : List α) (p : κ → Bool) :
    (tally key weight items).sumWhere p = ((items.filter fun x => p (key x)).map weight).sum := by
  induction items using List.reverseRecOn with
  | nil => rfl
  | append_singleton items x ih =>
    rw [tally_concat, sumWhere, adjust, Increasing.sum_adjust_add, List.filter_append,
      List.map_append, List.sum_append, ← ih]
    cases hx : p (key x) <;> simp [hx, sumWhere]

/-- A key is counted if an item has it, and then with the weight of all items that have it. -/
theorem get?_tally_eq_some_iff [DecidableEq κ] {items : List α} {k : κ} {n : Nat} :
    (tally key weight items).get? k = some n ↔
      (∃ x ∈ items, key x = k) ∧ n = ((items.filter fun x => key x = k).map weight).sum := by
  induction items using List.reverseRecOn generalizing n with
  | nil => simp [tally]
  | append_singleton items x ih =>
    rw [tally_concat, List.filter_append, List.map_append, List.sum_append]
    by_cases hx : key x = k
    · subst hx
      rw [get?_adjust_self]
      cases hknown : (tally key weight items).get? (key x) with
      | none =>
        have hnew : ∀ y ∈ items, ¬ key y = key x := by
          intro y hy hkey
          have hcounted := ih.2 ⟨⟨y, hy, hkey⟩, rfl⟩
          simp [hknown] at hcounted
        have hnone : items.filter (fun y => key y = key x) = [] :=
          List.filter_eq_nil_iff.2 (by simpa using hnew)
        simpa [hnone] using eq_comm
      | some m =>
        obtain ⟨_, rfl⟩ := ih.1 hknown
        simpa using eq_comm
    · rw [get?_adjust_of_ne _ _ (Ne.symm hx), ih]
      simp [hx]

end OrderedMap

end MutationRules
