import MutationRules.Ordered.Set

/-!
# Operand kinds

A kind says what fills an operand slot: one of five categories of sub-expression, or a literal text.
Kinds are ordered by their token, so a set of kinds lists its members alphabetically; a category
comes just before the literal that is spelled like it, from which it differs.
-/

namespace MutationRules

/-- What may stand in an operand slot. -/
inductive Kind
  /-- Any arithmetic expression. -/
  | arithExpr
  /-- An arithmetic variable. -/
  | arithVar
  /-- An arithmetic constant. -/
  | arithConst
  /-- A pointer variable. -/
  | pointerVar
  /-- Any address expression. -/
  | addressExpr
  /-- A literal constant, counter or callee name. -/
  | literal (text : String)
  deriving DecidableEq, Repr

namespace Kind

/-- The text that stands for the kind in an operand. -/
def token : Kind → String
  | .arithExpr => "@"
  | .arithVar => "V"
  | .arithConst => "C"
  | .pointerVar => "P"
  | .addressExpr => "A"
  | .literal text => text

/-- Categories come before literals among kinds of one token. -/
def rank : Kind → Nat
  | .arithExpr => 0
  | .arithVar => 1
  | .arithConst => 2
  | .pointerVar => 3
  | .addressExpr => 4
  | .literal _ => 5

/-- The categories of sub-expression. -/
def categories : List Kind := [.arithExpr, .arithVar, .arithConst, .pointerVar, .addressExpr]

theorem eq_of_token_of_rank {a b : Kind} (ht : a.token = b.token) (hr : a.rank = b.rank) :
    a = b := by
  cases a <;> cases b <;> simp_all [rank, token]

/-- Kinds are ordered by token, then by rank. -/
instance : Ord Kind := ⟨compareLex (compareOn token) (compareOn rank)⟩

instance : Std.TransOrd Kind :=
  inferInstanceAs (Std.TransCmp (compareLex (compareOn token) (compareOn rank)))

theorem compare_eq (a b : Kind) :
    compare a b = (compare a.token b.token).then (compare a.rank b.rank) := rfl

instance : Std.LawfulEqOrd Kind where
  compare_self := Std.ReflCmp.compare_self
  eq_of_compare {a b} h := by
    rw [compare_eq, Ordering.then_eq_eq] at h
    exact eq_of_token_of_rank (Std.LawfulEqCmp.eq_of_compare h.1)
      (Std.LawfulEqCmp.eq_of_compare h.2)

end Kind

/-- The kinds that a slot admits. -/
abbrev KindSet := OrderedSet Kind

namespace KindSet

/-- Any arithmetic value. -/
def arithmetic : KindSet := .ofList [.arithExpr, .arithVar, .arithConst]

/-- Any pointer value. -/
def pointer : KindSet := .ofList [.pointerVar, .addressExpr]

/-- One kind only. -/
def single (kind : Kind) : KindSet := .ofList [kind]

/-- The literals of the given texts. -/
def literals (texts : List String) : KindSet := .ofList (texts.map .literal)

@[simp] theorem mem_literals {kind : Kind} {texts : List String} :
    kind ∈ literals texts ↔ ∃ text ∈ texts, .literal text = kind := by
  simp [literals]

end KindSet

/-- The admitted kinds of each operand slot of an operator, first slot first. -/
abbrev Format := List KindSet

end MutationRules
