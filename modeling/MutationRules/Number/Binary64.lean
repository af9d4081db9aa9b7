import MutationRules.Number.Rounding

/-!
# Binary floating point

Non-negative numbers with fifty-three significant bits, as exact rationals. Every operation is the
exact one followed by `Binary64.ofRat`, which rounds to the nearest such number.
-/

namespace MutationRules

/-- The number `significand · 2 ^ exponent`. -/
structure Binary64 where
  /-- A natural number below `2 ^ 53`. -/
  significand : Nat
  /-- The power of two it counts, never below -1074. -/
  exponent : Int
  deriving DecidableEq, Repr

namespace Binary64

/-- The exact value. -/
def toRat (v : Binary64) : Rat := v.significand * (2 : Rat) ^ v.exponent

/-- The number zero. -/
def zero : Binary64 := ⟨0, -1074⟩

@[simp] theorem toRat_zero : zero.toRat = 0 := Rat.zero_mul _

/-- The power of two that the significand of a number near `x` counts: fifty-three bits remain, or
fewer where the least exponent is reached. -/
def exponentOf (x : Rat) : Int :=
  let guess : Int := x.num.toNat.log2 - x.den.log2 - 52
  let exact := if x < (2 : Rat) ^ (guess + 52) then guess - 1 else guess
  max exact (-1074)

/-- The least number with more than fifty-three bits. -/
def bound : Nat := 0x20000000000000

/-- The nearest number, where the even significand wins a tie. There is no upper limit. -/
def ofRat (x : Rat) : Binary64 :=
  if x ≤ 0 then zero
  else
    let exponent := exponentOf x
    let significand := roundRat (x / (2 : Rat) ^ exponent)
    if significand = bound then ⟨bound / 2, exponent + 1⟩ else ⟨significand, exponent⟩

/-- The nearest number to a natural number. -/
def ofNat (n : Nat) : Binary64 := ofRat n

/-- Whether the number is within the range of doubles. -/
def isFinite (v : Binary64) : Bool := v.exponent ≤ 971

/-- The rounded sum. -/
def add (a b : Binary64) : Binary64 := ofRat (a.toRat + b.toRat)

/-- The rounded product. -/
def mul (a b : Binary64) : Binary64 := ofRat (a.toRat * b.toRat)

/-- The rounded quotient. -/
def div (a b : Binary64) : Binary64 := ofRat (a.toRat / b.toRat)

/-- The greatest integer that is not above. -/
def floor (v : Binary64) : Nat := v.toRat.floor.toNat

/-- What is left after whole multiples of `b` are taken away. No rounding is needed. -/
def mod (a b : Binary64) : Binary64 :=
  ofRat (a.toRat - (a.toRat / b.toRat).floor * b.toRat)

/-- The nearest number to a power of ten. -/
def powerOfTen (k : Nat) : Binary64 := ofNat (Nat.pow 10 k)

/-- A decimal: `digits · 10 ^ exponent`. -/
structure Decimal where
  /-- The digits as a number. -/
  digits : Nat
  /-- The power of ten it counts. -/
  exponent : Int
  deriving DecidableEq, Repr

/-- The exact value of a decimal. -/
def Decimal.toRat (d : Decimal) : Rat := d.digits * (10 : Rat) ^ d.exponent

/-- The same value without zeros at the end of the digits. -/
def Decimal.trimmed (d : Decimal) : Decimal :=
  if d.digits ≠ 0 ∧ d.digits % 10 = 0 then trimmed ⟨d.digits / 10, d.exponent + 1⟩ else d
termination_by d.digits
decreasing_by exact Nat.div_lt_self (by omega) (by decide)

/-- The number of digits before the point of a positive rational, negative where zeros follow the
point. -/
def decimalLength (x : Rat) : Int :=
  let guess : Int := x.num.toNat.repr.length - x.den.repr.length
  if x < (10 : Rat) ^ guess then guess else guess + 1

/-- The decimal with a number of digits that is nearest to `v` among those that round to `v`. -/
def decimalOf? (v : Binary64) (digits : Nat) : Option Decimal :=
  let x := v.toRat
  let exponent := decimalLength x - digits
  let scaled := x / (10 : Rat) ^ exponent
  let below : Decimal := ⟨scaled.floor.toNat, exponent⟩
  let above : Decimal := ⟨scaled.floor.toNat + 1, exponent⟩
  let nearer := if roundRat scaled = below.digits then [below, above] else [above, below]
  nearer.find? fun d => ofRat d.toRat = v

/-- The decimal with the fewest digits that rounds to `v`; seventeen digits always do. -/
def shortest (v : Binary64) : Decimal :=
  (((List.range 17).findSome? fun n => v.decimalOf? (n + 1)).getD ⟨0, 0⟩).trimmed

end Binary64

end MutationRules
