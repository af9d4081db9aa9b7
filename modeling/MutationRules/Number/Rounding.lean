/-!
# Rounding to integers and to fixed places

A non-negative ratio is rounded to the nearest integer, halves to the even neighbour; decimals with
a fixed number of places are rounded the same way on the exact value.
-/

namespace MutationRules

/-- The integer nearest to a ratio of naturals; a half goes to the even neighbour. -/
def roundRatio (num den : Nat) : Nat :=
  let whole := num / den
  let twice := 2 * (num % den)
  if twice < den ∨ (twice = den ∧ whole % 2 = 0) then whole else whole + 1

/-- The result is within a half of the ratio. -/
theorem two_mul_roundRatio {num den : Nat} (h : 0 < den) :
    2 * num ≤ 2 * roundRatio num den * den + den ∧
      2 * roundRatio num den * den ≤ 2 * num + den := by
  have hdiv := Nat.div_add_mod num den
  have hmod := Nat.mod_lt num h
  have hw : 2 * (num / den) * den = 2 * (den * (num / den)) := by
    rw [Nat.mul_assoc, Nat.mul_comm (num / den)]
  have hs : 2 * (num / den + 1) * den = 2 * (den * (num / den)) + 2 * den := by
    rw [Nat.mul_add, Nat.add_mul, hw]
  unfold roundRatio
  dsimp only
  split
  next hc => rw [hw]; omega
  next hc => rw [hs]; omega

/-- A half goes to the even neighbour. -/
theorem roundRatio_half (whole : Nat) : roundRatio (2 * whole + 1) 2 = whole + whole % 2 := by
  have hdiv : (2 * whole + 1) / 2 = whole := by omega
  have hmod : (2 * whole + 1) % 2 = 1 := by omega
  unfold roundRatio
  rw [hdiv, hmod]
  rcases Nat.mod_two_eq_zero_or_one whole with h | h <;> simp [h]

/-- The integer nearest to a non-negative rational. -/
def roundRat (x : Rat) : Nat := roundRatio x.num.toNat x.den

/-- The digits of a number, with zeros in front up to a width. -/
def paddedDigits (width n : Nat) : String :=
  let digits := n.repr
  "".pushn '0' (width - digits.length) ++ digits

/-- A non-negative rational rounded to a number of decimal places. -/
def fixedPlaces (places : Nat) (x : Rat) : String :=
  let unit := Nat.pow 10 places
  let scaled := roundRat (x * unit)
  if places = 0 then scaled.repr
  else (scaled / unit).repr ++ "." ++ paddedDigits places (scaled % unit)

end MutationRules
