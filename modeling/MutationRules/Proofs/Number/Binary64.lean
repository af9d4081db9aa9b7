import Mathlib.Algebra.Order.Field.Power
import Mathlib.Data.Int.Log
import Mathlib.Data.Rat.Floor
import Mathlib.Tactic.FieldSimp
import Mathlib.Tactic.Linarith
import Mathlib.Tactic.NormNum
import Mathlib.Tactic.Positivity
import Mathlib.Tactic.Ring
import MutationRules.Number.Binary64

/-!
# Rounded arithmetic

Rounding keeps the order of numbers and leaves those alone that need no more than fifty-three bits,
so whatever a number is compared with that is itself representable, the rounded number compares with
it in the same way or is equal to it.
-/

namespace MutationRules

/-! ## The nearest integer -/

section Nearest

variable {x y : ℚ}

/-- The nearest integer is within a half. -/
theorem abs_roundRat_sub_le (hx : 0 ≤ x) : |(roundRat x : ℚ) - x| ≤ 1 / 2 := by
  have hden : (0 : ℚ) < x.den := by exact_mod_cast x.den_pos
  have hnum : ((x.num.toNat : ℕ) : ℚ) = x * x.den := by
    rw [Rat.mul_den_eq_num]
    exact_mod_cast Int.toNat_of_nonneg (Rat.num_nonneg.2 hx)
  obtain ⟨hlow, hhigh⟩ := @two_mul_roundRatio x.num.toNat x.den x.den_pos
  have hlow' : 2 * (x * x.den) ≤ 2 * roundRat x * x.den + x.den := by
    rw [← hnum]; exact_mod_cast hlow
  have hhigh' : 2 * (roundRat x : ℚ) * x.den ≤ 2 * (x * x.den) + x.den := by
    rw [← hnum]; exact_mod_cast hhigh
  rw [abs_le]
  constructor <;> nlinarith

theorem roundRat_mono (hx : 0 ≤ x) (h : x ≤ y) : roundRat x ≤ roundRat y := by
  by_contra hlt
  have hnext : (roundRat y : ℚ) + 1 ≤ roundRat x := by exact_mod_cast not_le.1 hlt
  have hbelow := abs_le.1 (abs_roundRat_sub_le hx)
  have habove := abs_le.1 (abs_roundRat_sub_le (hx.trans h))
  -- Only one number is a half away from two neighbours, and it is not rounded to both.
  have hxy : x = y := le_antisymm h (by linarith)
  exact hlt (hxy ▸ le_rfl)

theorem roundRat_natCast (n : ℕ) : roundRat n = n := by
  have hnear := abs_le.1 (abs_roundRat_sub_le (x := n) (Nat.cast_nonneg n))
  have hlow : roundRat n < n + 1 := by
    have : (roundRat n : ℚ) < n + 1 := by linarith
    exact_mod_cast this
  have hhigh : n < roundRat n + 1 := by
    have : (n : ℚ) < roundRat n + 1 := by linarith
    exact_mod_cast this
  omega

end Nearest

namespace Binary64

variable {x y : ℚ}

/-! ## The exponent -/

theorem two_zpow_add_natCast (k : ℤ) (j : ℕ) : (2 : ℚ) ^ (k + j) = (2 ^ j : ℕ) * 2 ^ k := by
  rw [zpow_add₀ two_ne_zero, zpow_natCast, mul_comm, Nat.cast_pow, Nat.cast_ofNat]

theorem lt_two_zpow_iff {k : ℤ} (hx : 0 < x) : x < 2 ^ k ↔ Int.log 2 x < k := by
  exact_mod_cast Int.lt_zpow_iff_log_lt one_lt_two hx

theorem two_zpow_le_iff {k : ℤ} (hx : 0 < x) : 2 ^ k ≤ x ↔ k ≤ Int.log 2 x := by
  exact_mod_cast Int.zpow_le_iff_le_log one_lt_two hx

/-- The binary logarithm of a ratio is the difference of those of its parts, or one less. -/
theorem log_bounds (hx : 0 < x) :
    (x.num.toNat.log2 : ℤ) - x.den.log2 - 1 ≤ Int.log 2 x ∧
      Int.log 2 x ≤ x.num.toNat.log2 - x.den.log2 := by
  have hden : (0 : ℚ) < x.den := by exact_mod_cast x.den_pos
  have hratio : x = (x.num.toNat : ℕ) / (x.den : ℚ) := by
    rw [eq_div_iff hden.ne', Rat.mul_den_eq_num]
    exact_mod_cast (Int.toNat_of_nonneg (Rat.num_nonneg.2 hx.le)).symm
  have hnum : x.num.toNat ≠ 0 := by
    intro hzero
    rw [hzero, Nat.cast_zero, zero_div] at hratio
    exact hx.ne' hratio
  generalize hn : x.num.toNat = n at *
  generalize x.den = d at *
  have hnlow : (2 : ℚ) ^ n.log2 ≤ n := by exact_mod_cast Nat.log2_self_le hnum
  have hnhigh : (n : ℚ) < 2 ^ (n.log2 + 1) := by exact_mod_cast Nat.lt_log2_self
  have hdlow : (2 : ℚ) ^ d.log2 ≤ d := by
    exact_mod_cast Nat.log2_self_le (Nat.cast_pos.1 hden).ne'
  have hdhigh : (d : ℚ) < 2 ^ (d.log2 + 1) := by exact_mod_cast Nat.lt_log2_self
  constructor
  · rw [← two_zpow_le_iff hx, hratio, sub_sub, zpow_sub₀ two_ne_zero]
    exact_mod_cast div_le_div₀ (Nat.cast_nonneg n) hnlow hden hdhigh.le
  · rw [← Int.lt_add_one_iff, ← lt_two_zpow_iff hx, hratio, sub_add_eq_add_sub,
      zpow_sub₀ two_ne_zero]
    exact_mod_cast div_lt_div₀ hnhigh hdlow (by positivity) (by positivity)

/-- The exponent leaves fifty-three bits before the point, unless it is the least. -/
theorem exponentOf_eq (hx : 0 < x) : exponentOf x = max (Int.log 2 x - 52) (-1074) := by
  obtain ⟨hlow, hhigh⟩ := log_bounds hx
  rw [exponentOf, sub_add_cancel]
  refine congrArg (max · (-1074)) ?_
  split
  next hbelow =>
    rw [lt_two_zpow_iff hx] at hbelow
    omega
  next habove =>
    rw [lt_two_zpow_iff hx] at habove
    omega

theorem exponentOf_mono (hx : 0 < x) (h : x ≤ y) : exponentOf x ≤ exponentOf y := by
  rw [exponentOf_eq hx, exponentOf_eq (hx.trans_le h)]
  exact max_le_max (Int.sub_le_sub_right (Int.log_mono_right hx h) 52) le_rfl

theorem le_exponentOf (hx : 0 < x) : -1074 ≤ exponentOf x := by
  rw [exponentOf_eq hx]
  exact le_max_right _ _

theorem lt_zpow_exponentOf (hx : 0 < x) : x < 2 ^ (exponentOf x + 53) := by
  rw [lt_two_zpow_iff hx, exponentOf_eq hx]
  omega

theorem zpow_le_of_exponentOf (hx : 0 < x) (h : -1074 < exponentOf x) :
    2 ^ (exponentOf x + 52) ≤ x := by
  rw [exponentOf_eq hx] at h ⊢
  rw [two_zpow_le_iff hx]
  omega

/-- The exponent of a number below a power of two. -/
theorem exponentOf_le {k : ℤ} (hx : 0 < x) (hk : -1074 ≤ k) (h : x < 2 ^ (k + 53)) :
    exponentOf x ≤ k := by
  rw [lt_two_zpow_iff hx] at h
  rw [exponentOf_eq hx]
  omega

/-! ## The nearest number -/

theorem toRat_ofRat (hx : 0 < x) :
    (ofRat x).toRat = roundRat (x / 2 ^ exponentOf x) * 2 ^ exponentOf x := by
  rw [ofRat, if_neg hx.not_ge]
  dsimp only
  split
  next hbound =>
    rw [hbound, toRat, zpow_add_one₀ two_ne_zero]
    norm_num [bound]
    ring
  next => rfl

theorem toRat_ofRat_of_nonpos (hx : x ≤ 0) : (ofRat x).toRat = 0 := by
  rw [ofRat, if_pos hx, toRat_zero]

theorem toRat_nonneg (v : Binary64) : 0 ≤ v.toRat :=
  mul_nonneg (Nat.cast_nonneg _) (zpow_nonneg zero_le_two _)

/-- The nearest number is within half of the unit that its significand counts. -/
theorem abs_toRat_ofRat_sub_le (hx : 0 < x) :
    |(ofRat x).toRat - x| ≤ 2 ^ exponentOf x / 2 := by
  have hunit : (0 : ℚ) < 2 ^ exponentOf x := zpow_pos two_pos _
  have hround := abs_roundRat_sub_le (div_nonneg hx.le hunit.le)
  calc |(ofRat x).toRat - x|
      = |(roundRat (x / 2 ^ exponentOf x) : ℚ) - x / 2 ^ exponentOf x| * 2 ^ exponentOf x := by
        rw [toRat_ofRat hx, ← abs_of_pos hunit, ← abs_mul, abs_of_pos hunit, sub_mul,
          div_mul_cancel₀ x hunit.ne']
    _ ≤ 1 / 2 * 2 ^ exponentOf x := mul_le_mul_of_nonneg_right hround hunit.le
    _ = 2 ^ exponentOf x / 2 := by ring

/-- The significand needs no more than fifty-three bits, or is the next power of two. -/
theorem significand_le (hx : 0 < x) : roundRat (x / 2 ^ exponentOf x) ≤ bound := by
  have hunit : (0 : ℚ) < 2 ^ exponentOf x := zpow_pos two_pos _
  have hscaled : x / 2 ^ exponentOf x ≤ ((2 ^ 53 : ℕ) : ℚ) := by
    rw [div_le_iff₀ hunit, ← two_zpow_add_natCast]
    exact (lt_zpow_exponentOf hx).le
  exact (roundRat_mono (div_nonneg hx.le hunit.le) hscaled).trans_eq (roundRat_natCast _)

/-- Above the least exponent, the significand needs all fifty-three bits. -/
theorem le_significand (hx : 0 < x) (h : -1074 < exponentOf x) :
    2 ^ 52 ≤ roundRat (x / 2 ^ exponentOf x) := by
  have hunit : (0 : ℚ) < 2 ^ exponentOf x := zpow_pos two_pos _
  have hscaled : ((2 ^ 52 : ℕ) : ℚ) ≤ x / 2 ^ exponentOf x := by
    rw [le_div_iff₀ hunit, ← two_zpow_add_natCast]
    exact zpow_le_of_exponentOf hx h
  exact (roundRat_natCast _).symm.trans_le (roundRat_mono (Nat.cast_nonneg _) hscaled)

theorem toRat_ofRat_le_zpow (hx : 0 < x) : (ofRat x).toRat ≤ 2 ^ (exponentOf x + 53) := by
  rw [toRat_ofRat hx]
  exact (mul_le_mul_of_nonneg_right (Nat.cast_le.2 (significand_le hx))
    (zpow_nonneg zero_le_two _)).trans_eq (two_zpow_add_natCast _ 53).symm

theorem zpow_le_toRat_ofRat (hx : 0 < x) (h : -1074 < exponentOf x) :
    2 ^ (exponentOf x + 52) ≤ (ofRat x).toRat := by
  rw [toRat_ofRat hx]
  exact (two_zpow_add_natCast _ 52).trans_le (mul_le_mul_of_nonneg_right
    (Nat.cast_le.2 (le_significand hx h)) (zpow_nonneg zero_le_two _))

/-- Rounding keeps the order. -/
theorem toRat_ofRat_mono (h : x ≤ y) : (ofRat x).toRat ≤ (ofRat y).toRat := by
  rcases le_or_gt x 0 with hx | hx
  · exact toRat_ofRat_of_nonpos hx ▸ toRat_nonneg _
  have hy := hx.trans_le h
  rcases (exponentOf_mono hx h).eq_or_lt with he | he
  · have hunit : (0 : ℚ) < 2 ^ exponentOf y := zpow_pos two_pos _
    have hround := roundRat_mono (div_nonneg hx.le hunit.le)
      (div_le_div_of_nonneg_right h hunit.le)
    rw [toRat_ofRat hx, toRat_ofRat hy, he]
    exact mul_le_mul_of_nonneg_right (by exact_mod_cast hround) hunit.le
  · -- With different exponents, a power of two lies between the rounded numbers.
    calc (ofRat x).toRat
        ≤ 2 ^ (exponentOf x + 53) := toRat_ofRat_le_zpow hx
      _ ≤ 2 ^ (exponentOf y + 52) := zpow_le_zpow_right₀ one_le_two (by omega)
      _ ≤ (ofRat y).toRat := zpow_le_toRat_ofRat hy ((le_exponentOf hx).trans_lt he)

/-! ## Numbers that rounding does not change -/

/-- A number that needs no more than fifty-three bits. -/
def IsDouble (x : ℚ) : Prop := ∃ (n : ℕ) (k : ℤ), n < bound ∧ -1074 ≤ k ∧ x = n * 2 ^ k

theorem isDouble_natCast {n : ℕ} (hn : n < bound) : IsDouble n :=
  ⟨n, 0, hn, by decide, by rw [zpow_zero, mul_one]⟩

theorem isDouble_natCast_add_half {n : ℕ} (hn : 2 * n + 1 < bound) : IsDouble (n + 1 / 2) :=
  ⟨2 * n + 1, -1, hn, by decide, by push_cast; ring⟩

/-- What needs no more than fifty-three bits is its own nearest number. -/
theorem IsDouble.toRat_ofRat (h : IsDouble x) : (ofRat x).toRat = x := by
  obtain ⟨n, k, hn, hk, rfl⟩ := h
  rcases Nat.eq_zero_or_pos n with rfl | hpos
  · rw [Nat.cast_zero, zero_mul, toRat_ofRat_of_nonpos le_rfl]
  have hunit : (0 : ℚ) < 2 ^ k := zpow_pos two_pos _
  have hx : (0 : ℚ) < n * 2 ^ k := mul_pos (Nat.cast_pos.2 hpos) hunit
  have hlt : (n : ℚ) * 2 ^ k < 2 ^ (k + 53) :=
    (mul_lt_mul_of_pos_right (Nat.cast_lt.2 hn) hunit).trans_eq (two_zpow_add_natCast k 53).symm
  obtain ⟨j, hj⟩ := Int.le.dest (exponentOf_le hx hk hlt)
  have hsplit : (n : ℚ) * 2 ^ k = (n * 2 ^ j : ℕ) * 2 ^ exponentOf (n * 2 ^ k) := by
    rw [Nat.cast_mul, mul_assoc, ← two_zpow_add_natCast, hj]
  have hscaled : (n : ℚ) * 2 ^ k / 2 ^ exponentOf (n * 2 ^ k) = (n * 2 ^ j : ℕ) :=
    (div_eq_iff (zpow_pos two_pos _).ne').2 hsplit
  rw [Binary64.toRat_ofRat hx, hscaled, roundRat_natCast, ← hsplit]

theorem toRat_ofNat {n : ℕ} (hn : n < bound) : (ofNat n).toRat = n :=
  (isDouble_natCast hn).toRat_ofRat

/-- A number that needs no more than fifty-three bits stays below what is rounded above it. -/
theorem IsDouble.le_toRat_ofRat (hx : IsDouble x) (h : x ≤ y) : x ≤ (ofRat y).toRat :=
  hx.toRat_ofRat.symm.trans_le (toRat_ofRat_mono h)

/-- A nearest number needs no more than fifty-three bits. -/
theorem isDouble_toRat_ofRat (x : ℚ) : IsDouble (ofRat x).toRat := by
  rcases le_or_gt x 0 with hx | hx
  · rw [toRat_ofRat_of_nonpos hx]
    exact_mod_cast isDouble_natCast (n := 0) (by decide)
  rw [ofRat, if_neg hx.not_ge]
  dsimp only
  split
  next =>
    refine ⟨bound / 2, exponentOf x + 1, by decide, ?_, rfl⟩
    exact (le_exponentOf hx).trans (Int.le_add_one le_rfl)
  next hbound => exact ⟨_, _, (significand_le hx).lt_of_ne hbound, le_exponentOf hx, rfl⟩

/-- What is left of a number after whole multiples of a natural number are taken away needs no more
bits than the number. -/
theorem IsDouble.sub_floor_mul {n : ℕ} (hx : IsDouble x) (hpos : 0 < n) (hn : n < bound) :
    IsDouble (x - ⌊x / n⌋ * n) := by
  obtain ⟨m, k, hm, hk, rfl⟩ := hx
  have hn' : (0 : ℚ) < n := Nat.cast_pos.2 hpos
  have hquotient : (0 : ℚ) ≤ m * 2 ^ k / n := by positivity
  obtain ⟨q, hq⟩ := Int.eq_ofNat_of_zero_le (Int.floor_nonneg.2 hquotient)
  have hle : (q : ℚ) * n ≤ m * 2 ^ k := by
    rw [← le_div_iff₀ hn']
    exact_mod_cast hq ▸ Int.floor_le ((m : ℚ) * 2 ^ k / n)
  have hlt : (m : ℚ) * 2 ^ k < (q + 1) * n := by
    rw [← div_lt_iff₀ hn']
    exact_mod_cast hq ▸ Int.lt_floor_add_one ((m : ℚ) * 2 ^ k / n)
  rw [hq, Int.cast_natCast]
  -- A whole number leaves a whole number below `n`; a fraction leaves one of the same denominator.
  rcases Int.eq_nat_or_neg k with ⟨j, rfl | rfl⟩
  · rw [zpow_natCast] at hle hlt ⊢
    have hle' : q * n ≤ m * 2 ^ j := by exact_mod_cast hle
    have hlt' : m * 2 ^ j < (q + 1) * n := by exact_mod_cast hlt
    have hnat : ((m * 2 ^ j - q * n : ℕ) : ℚ) = m * 2 ^ j - q * n := by
      rw [Nat.cast_sub hle']
      push_cast
      rfl
    rw [← hnat]
    exact isDouble_natCast (by rw [Nat.add_mul] at hlt'; omega)
  · have hunit : (0 : ℚ) < 2 ^ j := by positivity
    rw [zpow_neg, zpow_natCast, ← div_eq_mul_inv] at hle ⊢
    have hle' : q * n * 2 ^ j ≤ m := by exact_mod_cast (le_div_iff₀ hunit).1 hle
    refine ⟨m - q * n * 2 ^ j, -j, (Nat.sub_le _ _).trans_lt hm, hk, ?_⟩
    rw [Nat.cast_sub hle', zpow_neg, zpow_natCast, ← div_eq_mul_inv]
    push_cast
    field_simp

theorem toRat_mod_ofNat {v : Binary64} {n : ℕ} (hv : IsDouble v.toRat) (hpos : 0 < n)
    (hn : n < bound) : (v.mod (ofNat n)).toRat = v.toRat - ⌊v.toRat / n⌋ * n := by
  rw [mod, toRat_ofNat hn]
  exact (hv.sub_floor_mul hpos hn).toRat_ofRat

end Binary64

end MutationRules
