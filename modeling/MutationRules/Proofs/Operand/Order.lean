import MutationRules.Operand.Kind
import MutationRules.Proofs.Text.Order

/-!
# The order of kinds

Kinds are ordered by the code points of their tokens. Two different kinds have one token
only if one is a category and the other the literal that is spelled like it, and then the
category comes first.
-/

namespace MutationRules.Kind

variable {a b : Kind}

/-- Whether a kind comes before another: its token does, or the tokens are equal and only the first
kind is a category. -/
def Precedes (a b : Kind) : Prop :=
  Text.Precedes a.token b.token ∨ a.token = b.token ∧ a ∈ categories ∧ b ∉ categories

theorem mem_categories_iff : a ∈ categories ↔ a.rank < 5 := by
  cases a with
  | literal text => simp [categories, rank]
  | arithExpr | arithVar | arithConst | pointerVar | addressExpr => simp [categories, rank]

/-- Categories have different tokens. -/
theorem eq_of_mem_categories (ha : a ∈ categories) (hb : b ∈ categories)
    (h : a.token = b.token) : a = b := by
  have hinj : ∀ a ∈ categories, ∀ b ∈ categories, a.token = b.token → a = b := by decide
  exact hinj a ha b hb h

/-- Among kinds of one token the ranks only tell categories from literals. -/
theorem rank_lt_iff_of_token_eq (h : a.token = b.token) :
    a.rank < b.rank ↔ a ∈ categories ∧ b ∉ categories := by
  have hle : b.rank ≤ 5 := by cases b <;> simp [rank]
  constructor
  · intro hlt
    have ha : a ∈ categories := mem_categories_iff.2 (by omega)
    refine ⟨ha, fun hb => ?_⟩
    rw [eq_of_mem_categories ha hb h] at hlt
    omega
  · rintro ⟨ha, hb⟩
    rw [mem_categories_iff] at ha hb
    omega

theorem compare_eq_lt_iff : compare a b = .lt ↔ a.Precedes b := by
  rw [compare_eq, Ordering.then_eq_lt, Text.compare_eq_lt_iff, Precedes]
  apply or_congr_right
  constructor
  · rintro ⟨htoken, hrank⟩
    have h := Std.LawfulEqCmp.eq_of_compare htoken
    exact ⟨h, (rank_lt_iff_of_token_eq h).1 (Nat.compare_eq_lt.1 hrank)⟩
  · rintro ⟨h, hcategory⟩
    exact ⟨h ▸ Std.ReflCmp.compare_self,
      Nat.compare_eq_lt.2 ((rank_lt_iff_of_token_eq h).2 hcategory)⟩

theorem compare_eq_gt_iff : compare a b = .gt ↔ b.Precedes a := by
  rw [Std.OrientedCmp.gt_iff_lt, compare_eq_lt_iff]

/-- Of two kinds that are not equal, one comes before the other. -/
theorem not_precedes_iff : ¬ b.Precedes a ↔ b = a ∨ a.Precedes b := by
  rw [← compare_eq_lt_iff, ← compare_eq_gt_iff]
  cases hcmp : compare b a with
  | lt =>
    have hne : b ≠ a := by
      rintro rfl
      exact Increasing.not_lt_self b hcmp
    simp [hne]
  | eq => simp [Std.LawfulEqCmp.eq_of_compare hcmp]
  | gt => simp

/-- Whether a kind comes right after another, with no kind between them. -/
def IsNext (a b : Kind) : Prop := a.Precedes b ∧ ∀ other, ¬ (a.Precedes other ∧ other.Precedes b)

/-- A category is directly followed by the literal that is spelled like it. -/
theorem isNext_literal (ha : a ∈ categories) : a.IsNext (.literal a.token) := by
  have hliteral : Kind.literal a.token ∉ categories := by simp [categories]
  refine ⟨Or.inr ⟨rfl, ha, hliteral⟩, fun other hbetween => ?_⟩
  -- a kind between the two would have their token, and be no category after the first and a
  -- category before the second
  obtain ⟨hafter | ⟨htoken, _, hother⟩, hbefore | ⟨htoken', hother', _⟩⟩ := hbetween
  · exact Text.not_precedes_of_precedes hafter hbefore
  · rw [htoken'] at hafter
    exact Text.not_precedes_of_precedes hafter hafter
  · rw [← htoken] at hbefore
    exact Text.not_precedes_of_precedes hbefore hbefore
  · exact hother hother'

end MutationRules.Kind
