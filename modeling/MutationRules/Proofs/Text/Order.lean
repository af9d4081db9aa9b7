import MutationRules.Proofs.Ordered.Extensionality

/-!
# Texts in order

Texts are ordered by the code points of their characters. A list in a strict order holds
each of its entries once, and is determined by which entries it holds.
-/

namespace MutationRules

/-- A list of everything with a property, in the order of a strict relation. -/
structure Lists {α : Type} (before : α → α → Prop) (p : α → Prop) (xs : List α) : Prop where
  /-- Everything stands before what comes after it. -/
  ordered : xs.Pairwise before
  /-- Nothing with the property is missing, and nothing else is listed. -/
  mem_iff : ∀ a, a ∈ xs ↔ p a

/-- Whether a text comes before another by the code points of their characters. -/
def Text.Precedes (a b : String) : Prop :=
  List.Lex (fun c d : Char => c.toNat < d.toNat) a.toList b.toList

theorem Text.compare_eq_lt_iff {a b : String} : compare a b = .lt ↔ Precedes a b :=
  compareOfLessAndEq_eq_lt.trans String.lt_iff

theorem Text.not_precedes_of_precedes {a b : String} (h : Precedes a b) : ¬ Precedes b a := by
  intro h'
  have haa := Std.TransCmp.lt_trans (compare_eq_lt_iff.2 h) (compare_eq_lt_iff.2 h')
  exact Increasing.not_lt_self a haa

/-- Texts are listed in order in one way only. -/
theorem Lists.eq_of_precedes {p : String → Prop} {xs ys : List String}
    (h : Lists Text.Precedes p xs) (h' : Lists Text.Precedes p ys) : xs = ys := by
  apply Increasing.eq_of_mem_iff
  · exact h.ordered.imp Text.compare_eq_lt_iff.2
  · exact h'.ordered.imp Text.compare_eq_lt_iff.2
  · exact fun text => (h.mem_iff text).trans (h'.mem_iff text).symm

/-- The keys of a map, if they are texts, are listed in order. -/
theorem OrderedMap.lists_keys {β : Type} (m : OrderedMap String β) :
    Lists Text.Precedes (fun key => ∃ value, m.get? key = some value) m.keys where
  ordered := m.increasing.imp Text.compare_eq_lt_iff.1
  mem_iff key := by rw [mem_keys_iff, Option.isSome_iff_exists]

end MutationRules
