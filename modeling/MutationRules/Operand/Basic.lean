import MutationRules.Operand.Kind

/-!
# Operands

An operand of a rule is a kind, bare or tagged with the matcher slot whose value it stands for.
Slots are numbered from 1, and the number follows the kind in the text.
-/

namespace MutationRules

/-- A kind in a rule, with the matcher slot it refers to. -/
structure Operand where
  /-- What the operand is. -/
  kind : Kind
  /-- The number of the matcher slot, from 1; a bare operand has none. -/
  slot? : Option Nat
  deriving DecidableEq, Repr

namespace Operand

/-- The operand that refers to the matcher slot at a position counted from 0. -/
def atSlot (kind : Kind) (position : Nat) : Operand := ⟨kind, some (position + 1)⟩

/-- The operand that refers to no slot. -/
def bare (kind : Kind) : Operand := ⟨kind, none⟩

/-- The kind's token, followed by the slot number if there is one. -/
def text (operand : Operand) : String :=
  match operand.slot? with
  | some slot => operand.kind.token ++ slot.repr
  | none => operand.kind.token

@[simp] theorem text_bare (kind : Kind) : (bare kind).text = kind.token := rfl

@[simp] theorem text_atSlot (kind : Kind) (position : Nat) :
    (atSlot kind position).text = kind.token ++ (position + 1).repr := rfl

/-- Operands are ordered by kind, a bare one first, then by slot number. -/
instance : Ord Operand := ⟨compareLex (compareOn kind) (compareOn slot?)⟩

instance : Std.TransOrd Operand :=
  inferInstanceAs (Std.TransCmp (compareLex (compareOn kind) (compareOn slot?)))

theorem compare_eq (a b : Operand) :
    compare a b = (compare a.kind b.kind).then (compare a.slot? b.slot?) := rfl

instance : Std.LawfulEqOrd Operand where
  compare_self := Std.ReflCmp.compare_self
  eq_of_compare {a b} h := by
    rw [compare_eq, Ordering.then_eq_eq] at h
    cases a; cases b
    exact congr (congrArg Operand.mk (Std.LawfulEqCmp.eq_of_compare h.1))
      (Std.LawfulEqCmp.eq_of_compare h.2)

end Operand

end MutationRules
