import MutationRules.Proofs.Number.Binary64
import MutationRules.Proofs.Text.Pieces
import MutationRules.Report.Duration

/-!
# Figures of durations

The unit of a duration is chosen by its seconds before they are rounded for printing. A duration
that is less than half of the last place below a unit is therefore printed as a full one: a thousand
milliseconds, sixty seconds, or sixty seconds after the minutes. Nothing above that is printed.
-/

namespace MutationRules

theorem fixedPlaces_zero (x : ℚ) : fixedPlaces 0 x = (roundRat x).repr := by
  simp [fixedPlaces]

theorem paddedDigits_one (n : ℕ) : paddedDigits 1 n = n.repr := by
  have hlength : 0 < n.repr.length := by
    rw [← String.length_toList, Nat.toList_repr]
    exact Nat.length_toDigits_pos
  have hwidth : 1 - n.repr.length = 0 := Nat.sub_eq_zero_of_le hlength
  rw [paddedDigits, hwidth]
  exact String.empty_append

theorem fixedPlaces_one (x : ℚ) :
    fixedPlaces 1 x = (roundRat (x * 10) / 10).repr ++ "." ++ (roundRat (x * 10) % 10).repr := by
  simp [fixedPlaces, paddedDigits_one]

namespace Duration

/-! ## Figures -/

/-- What is printed of a duration. -/
inductive Figures
  /-- Milliseconds. -/
  | milliseconds (count : ℕ)
  /-- Seconds, counted in tenths. -/
  | tenths (count : ℕ)
  /-- Minutes as a text, and the seconds that are left. -/
  | minutes (whole : String) (seconds : ℕ)

namespace Figures

/-- The figures with their units. -/
def text : Figures → String
  | milliseconds count => count.repr ++ "ms"
  | tenths count => (count / 10).repr ++ "." ++ (count % 10).repr ++ "s"
  | minutes whole seconds => whole ++ "m " ++ seconds.repr ++ "s"

/-- What stands before the last character that is neither a digit nor the final unit. -/
def front : Figures → List Char
  | milliseconds count => count.repr.toList
  | tenths count => (count / 10).repr.toList
  | minutes whole _ => whole.toList ++ ['m']

/-- The last character that is neither a digit nor the final unit. -/
def mark : Figures → Char
  | milliseconds _ => 'm'
  | tenths _ => '.'
  | minutes _ _ => ' '

/-- The digits before the final unit. -/
def back : Figures → List Char
  | milliseconds _ => []
  | tenths count => (count % 10).repr.toList
  | minutes _ seconds => seconds.repr.toList

theorem toList_text (f : Figures) : f.text.toList = f.front ++ f.mark :: (f.back ++ ['s']) := by
  cases f <;> simp [text, front, mark, back]

/-- A number is read from its digits. -/
theorem eq_of_toList_repr_eq {m n : ℕ} (h : m.repr.toList = n.repr.toList) : m = n := by
  rw [Nat.toList_repr, Nat.toList_repr] at h
  rw [← Nat.ofDigitChars_toDigits (b := 10) (n := m) (by decide) le_rfl, h,
    Nat.ofDigitChars_toDigits (by decide) le_rfl]

theorem isDigit_of_mem_repr {n : ℕ} {c : Char} (h : c ∈ n.repr.toList) : c.isDigit = true := by
  rw [Nat.toList_repr] at h
  exact Nat.isDigit_of_mem_toDigits (by decide) le_rfl h

theorem isDigit_of_mem_back {f : Figures} {c : Char} (h : c ∈ f.back) : c.isDigit = true := by
  cases f with
  | milliseconds count => cases h
  | tenths count => exact isDigit_of_mem_repr h
  | minutes whole seconds => exact isDigit_of_mem_repr h

/-- Figures are determined by their text. -/
theorem text_injective : Function.Injective text := by
  intro f g h
  have hlist : f.front ++ f.mark :: (f.back ++ ['s']) = g.front ++ g.mark :: (g.back ++ ['s']) := by
    rw [← toList_text, ← toList_text, h]
  have hmark : ∀ f : Figures, (!(f.mark.isDigit || f.mark = 's')) = true := by
    rintro (_ | _ | _) <;> rfl
  have hback : ∀ (f : Figures), ∀ c ∈ f.back ++ ['s'], (!(c.isDigit || c = 's')) = false := by
    intro f c hc
    rcases List.mem_append.1 hc with hc | hc
    · simp [isDigit_of_mem_back hc]
    · simp [List.mem_singleton.1 hc]
  have hend := Text.eq_of_append_last_cons_eq (hmark f) (hmark g) (hback f) (hback g) hlist
  have hstart : f.front ++ [f.mark] = g.front ++ [g.mark] := by
    rw [hend, List.append_cons, List.append_cons g.front] at hlist
    exact List.append_cancel_right hlist
  obtain ⟨hfront, hmarks⟩ := List.append_inj' hstart rfl
  have hdigits := List.append_cancel_right hend
  cases f with
  | milliseconds count =>
    cases g with
    | milliseconds count' => exact congrArg _ (eq_of_toList_repr_eq hfront)
    | tenths | minutes => cases hmarks
  | tenths count =>
    cases g with
    | tenths count' =>
      have hwhole := eq_of_toList_repr_eq hfront
      have htenth := eq_of_toList_repr_eq hdigits
      exact congrArg _ (by omega)
    | milliseconds | minutes => cases hmarks
  | minutes whole seconds =>
    cases g with
    | minutes whole' seconds' =>
      have hwhole := String.toList_inj.1 (List.append_cancel_right hfront)
      exact congrArg₂ _ hwhole (eq_of_toList_repr_eq hdigits)
    | milliseconds | tenths => cases hmarks

end Figures

/-! ## Measured seconds -/

variable {d d' : Duration}

/-- The fraction of a second as which nanoseconds are measured. -/
def fraction (nanoseconds : ℕ) : ℚ := (Binary64.ofRat (nanoseconds / second)).toRat

theorem fraction_mono {m n : ℕ} (h : m ≤ n) : fraction m ≤ fraction n :=
  Binary64.toRat_ofRat_mono
    (div_le_div_of_nonneg_right (Nat.cast_le.2 h) (Nat.cast_nonneg second))

theorem fraction_nonneg (n : ℕ) : 0 ≤ fraction n := Binary64.toRat_nonneg _

/-- The whole seconds and the fraction before they are added. -/
def parts (d : Duration) : ℚ :=
  (Binary64.ofNat (d.nanoseconds / second)).toRat + fraction (d.nanoseconds % second)

theorem toRat_seconds (d : Duration) : d.seconds.toRat = (Binary64.ofRat d.parts).toRat := by
  have hmod : d.nanoseconds % second < Binary64.bound :=
    (Nat.mod_lt _ (by decide)).trans (by decide)
  have hsecond : second < Binary64.bound := by decide
  rw [seconds, Binary64.add, Binary64.div, Binary64.toRat_ofNat hmod, Binary64.toRat_ofNat hsecond]
  rfl

/-- How far a sum below `2 ^ 24` is rounded at most. It is less than a nanosecond. -/
def tolerance : ℚ := 1 / 1073741824

theorem tolerance_nonneg : 0 ≤ tolerance := by decide +kernel

/-- No fraction of a second comes close to a whole one. -/
theorem fraction_mod_lt_one (n : ℕ) : fraction (n % second) + tolerance < 1 := by
  have hgreatest : fraction 999999999 + tolerance < 1 := by decide +kernel
  have hle : fraction (n % second) ≤ fraction 999999999 :=
    fraction_mono (Nat.le_of_lt_succ (Nat.mod_lt n (by decide)))
  linarith

theorem fraction_lt_half {n : ℕ} (h : 2 * n < second) : fraction n + tolerance < 1 / 2 := by
  have hgreatest : fraction 499999999 + tolerance < 1 / 2 := by decide +kernel
  have hle : fraction n ≤ fraction 499999999 := fraction_mono (by rw [second] at h; omega)
  linarith

theorem half_le_fraction {n : ℕ} (h : second ≤ 2 * n) : 1 / 2 ≤ fraction n := by
  have hhalf : fraction 500000000 = 1 / 2 := by decide +kernel
  exact hhalf ▸ fraction_mono (by rw [second] at h; omega)

/-- Whole seconds are measured exactly, unless they are too many for a double. -/
theorem parts_eq (h : d.nanoseconds < Binary64.bound * second) :
    d.parts = (d.nanoseconds / second : ℕ) + fraction (d.nanoseconds % second) := by
  rw [parts, Binary64.toRat_ofNat (Nat.div_lt_of_lt_mul (Nat.mul_comm _ _ ▸ h))]

/-- A longer duration is not measured as a shorter one. -/
theorem toRat_seconds_mono (h : d.nanoseconds ≤ d'.nanoseconds)
    (hbound : d'.nanoseconds < Binary64.bound * second) :
    d.seconds.toRat ≤ d'.seconds.toRat := by
  rw [toRat_seconds, toRat_seconds]
  refine Binary64.toRat_ofRat_mono ?_
  rw [parts_eq (h.trans_lt hbound), parts_eq hbound]
  -- Another whole second outweighs any fraction.
  rcases (Nat.div_le_div_right (c := second) h).eq_or_lt with hwhole | hwhole
  · rw [hwhole]
    have hmod : d.nanoseconds % second ≤ d'.nanoseconds % second := by
      have hd := Nat.div_add_mod d.nanoseconds second
      have hd' := Nat.div_add_mod d'.nanoseconds second
      rw [hwhole] at hd
      omega
    exact add_le_add_right (fraction_mono hmod) _
  · have hnext : ((d.nanoseconds / second : ℕ) : ℚ) + 1 ≤ (d'.nanoseconds / second : ℕ) := by
      exact_mod_cast hwhole
    have hless := fraction_mod_lt_one d.nanoseconds
    have hnonneg := fraction_nonneg (d'.nanoseconds % second)
    linarith [tolerance_nonneg]

/-- Whole seconds that a duration reaches are reached by what is measured. -/
theorem natCast_le_toRat_seconds {n : ℕ} (hn : n < Binary64.bound)
    (h : n * second ≤ d.nanoseconds) : (n : ℚ) ≤ d.seconds.toRat := by
  rw [toRat_seconds]
  refine (Binary64.isDouble_natCast hn).le_toRat_ofRat ?_
  have hwhole : (n : ℚ) ≤ (d.nanoseconds / second : ℕ) := by
    exact_mod_cast (Nat.le_div_iff_mul_le (by decide)).2 h
  have hmeasured := (Binary64.isDouble_natCast hn).le_toRat_ofRat hwhole
  exact hmeasured.trans (le_add_of_nonneg_right (fraction_nonneg _))

/-- Below `2 ^ 24` seconds, the sum of the parts is rounded by less than a nanosecond. -/
theorem toRat_seconds_le (h : d.nanoseconds < 2 ^ 24 * second) :
    d.seconds.toRat ≤
      (d.nanoseconds / second : ℕ) + fraction (d.nanoseconds % second) + tolerance := by
  rw [← parts_eq (h.trans (by decide)), toRat_seconds]
  rcases le_or_gt d.parts 0 with hparts | hparts
  · have hwhole := Binary64.toRat_nonneg (Binary64.ofNat (d.nanoseconds / second))
    have hfraction := fraction_nonneg (d.nanoseconds % second)
    rw [Binary64.toRat_ofRat_of_nonpos hparts, parts]
    linarith [tolerance_nonneg]
  have hbelow : d.parts < 2 ^ ((-29 : ℤ) + 53) := by
    have hwhole : ((d.nanoseconds / second : ℕ) : ℚ) + 1 ≤ 2 ^ 24 := by
      exact_mod_cast Nat.div_lt_of_lt_mul (Nat.mul_comm _ _ ▸ h)
    have hless := fraction_mod_lt_one d.nanoseconds
    rw [parts_eq (h.trans (by decide))]
    norm_num at hwhole ⊢
    linarith [tolerance_nonneg]
  have hunit : (2 : ℚ) ^ Binary64.exponentOf d.parts ≤ 2 ^ (-29 : ℤ) :=
    zpow_le_zpow_right₀ one_le_two (Binary64.exponentOf_le hparts (by decide) hbelow)
  have hnear : (Binary64.ofRat d.parts).toRat - d.parts ≤ tolerance :=
    calc (Binary64.ofRat d.parts).toRat - d.parts
        ≤ 2 ^ Binary64.exponentOf d.parts / 2 :=
          (abs_le.1 (Binary64.abs_toRat_ofRat_sub_le hparts)).2
      _ ≤ 2 ^ (-29 : ℤ) / 2 := div_le_div_of_nonneg_right hunit zero_le_two
      _ = tolerance := by norm_num [tolerance]
  linarith

/-- Below `2 ^ 24` seconds, measuring a duration does not carry it to whole seconds that it does not
reach. -/
theorem toRat_seconds_lt_iff {n : ℕ} (h : d.nanoseconds < 2 ^ 24 * second) :
    d.seconds.toRat < n ↔ d.nanoseconds < n * second := by
  constructor
  · intro hlt
    by_contra hreached
    have hn : n < Binary64.bound := by
      rw [second] at *
      have : Binary64.bound = 2 ^ 53 := rfl
      omega
    exact hlt.not_ge (natCast_le_toRat_seconds hn (not_lt.1 hreached))
  · intro hlt
    have hwhole : ((d.nanoseconds / second : ℕ) : ℚ) + 1 ≤ n := by
      exact_mod_cast Nat.div_lt_of_lt_mul (Nat.mul_comm _ _ ▸ hlt)
    have hless := fraction_mod_lt_one d.nanoseconds
    have hmeasured := toRat_seconds_le h
    linarith

/-- Nor does it carry a duration to half seconds that it does not reach. -/
theorem toRat_seconds_lt_half_iff {n : ℕ} (h : d.nanoseconds < 2 ^ 24 * second) :
    d.seconds.toRat < n + 1 / 2 ↔ 2 * d.nanoseconds < (2 * n + 1) * second := by
  have hdiv := Nat.div_add_mod d.nanoseconds second
  have hmod := Nat.mod_lt d.nanoseconds (y := second) (by decide)
  have hbound : Binary64.bound = 2 ^ 53 := rfl
  -- Only within the second in question does the fraction decide.
  rcases lt_trichotomy (d.nanoseconds / second) n with hwhole | hwhole | hwhole
  · have hns : d.nanoseconds < n * second := (Nat.div_lt_iff_lt_mul (by decide)).1 hwhole
    have hlt := (toRat_seconds_lt_iff h).2 hns
    exact iff_of_true (by linarith) (by rw [second] at *; omega)
  · have hparts := parts_eq (h.trans (by decide))
    have hmeasured := toRat_seconds_le h
    rw [hwhole] at hparts hmeasured hdiv
    by_cases hhalf : 2 * (d.nanoseconds % second) < second
    · have hless := fraction_lt_half hhalf
      exact iff_of_true (by linarith) (by rw [second] at *; omega)
    · have hmore := half_le_fraction (not_lt.1 hhalf)
      have hreached : (n : ℚ) + 1 / 2 ≤ d.seconds.toRat := by
        rw [toRat_seconds, hparts]
        exact (Binary64.isDouble_natCast_add_half (by rw [second] at *; omega)).le_toRat_ofRat
          (by linarith)
      exact iff_of_false hreached.not_gt (by rw [second] at *; omega)
  · have hns : (n + 1) * second ≤ d.nanoseconds := (Nat.le_div_iff_mul_le (by decide)).1 hwhole
    have hreached := natCast_le_toRat_seconds (n := n + 1) (by rw [second] at *; omega) hns
    push_cast at hreached
    exact iff_of_false (by linarith) (by rw [second] at *; omega)

/-- The unit of a duration is the one that its exact length suggests. -/
theorem toRat_seconds_lt_iff_of_le {n : ℕ} (hn : n ≤ 2 ^ 24) :
    d.seconds.toRat < n ↔ d.nanoseconds < n * second := by
  by_cases h : d.nanoseconds < 2 ^ 24 * second
  · exact toRat_seconds_lt_iff h
  · have hns : n * second ≤ d.nanoseconds := (Nat.mul_le_mul_right _ hn).trans (not_lt.1 h)
    have hreached := natCast_le_toRat_seconds (hn.trans_lt (by decide)) hns
    exact iff_of_false hreached.not_gt hns.not_gt

theorem toRat_seconds_lt_one_iff : d.seconds.toRat < 1 ↔ d.nanoseconds < second := by
  rw [← Nat.cast_one, toRat_seconds_lt_iff_of_le (by decide), Nat.one_mul]

theorem toRat_seconds_lt_sixty_iff : d.seconds.toRat < 60 ↔ d.nanoseconds < 60 * second :=
  toRat_seconds_lt_iff_of_le (n := 60) (by decide)

/-! ## Printed figures -/

/-- The milliseconds that are printed of a duration below one second. -/
def millisecondCount (d : Duration) : ℕ := roundRat (d.seconds.mul (.ofNat 1000)).toRat

/-- The tenths of a second that are printed of a duration below one minute. -/
def tenthCount (d : Duration) : ℕ := roundRat (d.seconds.toRat * 10)

/-- The seconds that are printed behind the minutes. -/
def secondCount (d : Duration) : ℕ := roundRat (d.seconds.mod (.ofNat 60)).toRat

/-- What is printed of a duration. -/
def figures (d : Duration) : Figures :=
  if d.seconds.toRat < 1 then .milliseconds d.millisecondCount
  else if d.seconds.toRat < 60 then .tenths d.tenthCount
  else .minutes (wholeText (.ofNat (d.seconds.div (.ofNat 60)).floor)) d.secondCount

theorem text_eq (d : Duration) : d.text = d.figures.text := by
  rw [text, figures]
  dsimp only
  split
  · rw [fixedPlaces_zero]
    rfl
  split
  · rw [fixedPlaces_one]
    rfl
  · rw [fixedPlaces_zero]
    rfl

/-- A longer duration is not printed with fewer milliseconds. -/
theorem millisecondCount_mono (h : d.nanoseconds ≤ d'.nanoseconds)
    (hbound : d'.nanoseconds < Binary64.bound * second) :
    d.millisecondCount ≤ d'.millisecondCount := by
  have hthousand := Binary64.toRat_nonneg (.ofNat 1000)
  exact roundRat_mono (Binary64.toRat_nonneg _) <| Binary64.toRat_ofRat_mono <|
    mul_le_mul_of_nonneg_right (toRat_seconds_mono h hbound) hthousand

/-- A longer duration is not printed with fewer tenths of a second. -/
theorem tenthCount_mono (h : d.nanoseconds ≤ d'.nanoseconds)
    (hbound : d'.nanoseconds < Binary64.bound * second) : d.tenthCount ≤ d'.tenthCount :=
  roundRat_mono (mul_nonneg (Binary64.toRat_nonneg _) (by norm_num))
    (mul_le_mul_of_nonneg_right (toRat_seconds_mono h hbound) (by norm_num))

/-- A count that grows with durations and is full from one length up to another is less than full
exactly below the first. -/
theorem count_bounds {count : Duration → ℕ} {below greatest full : ℕ}
    (hmono : ∀ d d' : Duration, d.nanoseconds ≤ d'.nanoseconds → d'.nanoseconds ≤ greatest →
      count d ≤ count d')
    (hle : below ≤ greatest) (hbelow : count ⟨below⟩ < full) (hfull : count ⟨below + 1⟩ = full)
    (hgreatest : count ⟨greatest⟩ = full) (h : d.nanoseconds < greatest + 1) :
    count d ≤ full ∧ (count d < full ↔ d.nanoseconds < below + 1) := by
  have hd := Nat.le_of_lt_succ h
  refine ⟨hgreatest ▸ hmono d ⟨greatest⟩ hd le_rfl, fun hcount => ?_, fun hns => ?_⟩
  · by_contra hns
    exact hcount.not_ge (hfull ▸ hmono ⟨below + 1⟩ d (not_lt.1 hns) hd)
  · exact (hmono d ⟨below⟩ (Nat.le_of_lt_succ hns) hle).trans_lt hbelow

/-- Up to a thousand milliseconds are printed, and a thousand of them from half a millisecond below
a second on. -/
theorem millisecondCount_bounds (h : d.nanoseconds < second) :
    d.millisecondCount ≤ 1000 ∧ (d.millisecondCount < 1000 ↔ d.nanoseconds < 999500000) := by
  have hbelow : millisecondCount ⟨999499999⟩ < 1000 := by decide +kernel
  have hfull : millisecondCount ⟨999500000⟩ = 1000 := by decide +kernel
  have hgreatest : millisecondCount ⟨999999999⟩ = 1000 := by decide +kernel
  exact count_bounds (fun _ _ h h' => millisecondCount_mono h (h'.trans_lt (by decide))) (by decide)
    hbelow hfull hgreatest h

/-- Up to sixty seconds are printed with tenths, and sixty of them from half a tenth below a minute
on. -/
theorem tenthCount_bounds (h : d.nanoseconds < 60 * second) :
    d.tenthCount ≤ 600 ∧ (d.tenthCount < 600 ↔ d.nanoseconds < 59950000000) := by
  have hbelow : tenthCount ⟨59949999999⟩ < 600 := by decide +kernel
  have hfull : tenthCount ⟨59950000000⟩ = 600 := by decide +kernel
  have hgreatest : tenthCount ⟨59999999999⟩ = 600 := by decide +kernel
  exact count_bounds (fun _ _ h h' => tenthCount_mono h (h'.trans_lt (by decide))) (by decide)
    hbelow hfull hgreatest h

/-- The seconds behind the last full minute, as they are measured. -/
def remainder (d : Duration) : ℚ := d.seconds.toRat - ⌊d.seconds.toRat / 60⌋ * 60

theorem secondCount_eq (d : Duration) : d.secondCount = roundRat d.remainder := by
  have hdouble : Binary64.IsDouble d.seconds.toRat :=
    toRat_seconds d ▸ Binary64.isDouble_toRat_ofRat _
  rw [secondCount, Binary64.toRat_mod_ofNat hdouble (by decide) (by decide)]
  rfl

/-- Up to sixty seconds are printed behind the minutes, and sixty of them from half a second below
a full minute on. -/
theorem secondCount_bounds (d : Duration) :
    d.secondCount ≤ 60 ∧ (d.secondCount < 60 ↔ d.remainder < 119 / 2) := by
  have hnonneg : 0 ≤ d.remainder := by
    have := Int.floor_le (d.seconds.toRat / 60)
    rw [remainder]
    linarith
  have hlt : d.remainder < 60 := by
    have := Int.lt_floor_add_one (d.seconds.toRat / 60)
    rw [remainder]
    linarith
  have hsixty : roundRat 60 = 60 := by decide +kernel
  have hhalf : roundRat (119 / 2) = 60 := by decide +kernel
  rw [secondCount_eq]
  refine ⟨hsixty ▸ roundRat_mono hnonneg hlt.le, ?_⟩
  constructor
  · intro hcount
    by_contra hremainder
    exact hcount.not_ge (hhalf ▸ roundRat_mono (by norm_num) (not_lt.1 hremainder))
  · intro hremainder
    have hnear := (abs_le.1 (abs_roundRat_sub_le hnonneg)).2
    have hcount : (roundRat d.remainder : ℚ) < 60 := by linarith
    exact_mod_cast hcount

/-- Below `2 ^ 24` seconds, the measured remainder is less than the half second below a full minute
if and only if the exact one is. -/
theorem remainder_lt_iff (h : d.nanoseconds < 2 ^ 24 * second) :
    d.remainder < 119 / 2 ↔ d.nanoseconds % (60 * second) < 59500000000 := by
  have hdiv := Nat.div_add_mod d.nanoseconds (60 * second)
  have hmod := Nat.mod_lt d.nanoseconds (y := 60 * second) (by decide)
  have hbound : Binary64.bound = 2 ^ 53 := rfl
  generalize d.nanoseconds / (60 * second) = minutes at hdiv
  have hlow : ((60 * minutes : ℕ) : ℚ) ≤ d.seconds.toRat :=
    natCast_le_toRat_seconds (by rw [second] at *; omega) (by rw [second] at *; omega)
  have hns : d.nanoseconds < (60 * (minutes + 1)) * second := by
    rw [Nat.mul_right_comm, Nat.mul_succ]
    omega
  have hhigh : d.seconds.toRat < (60 * (minutes + 1) : ℕ) := (toRat_seconds_lt_iff h).2 hns
  push_cast at hlow hhigh
  have hfloor : ⌊d.seconds.toRat / 60⌋ = (minutes : ℤ) := by
    rw [Int.floor_eq_iff, Int.cast_natCast]
    constructor <;> linarith
  have hmeasured : d.remainder < 119 / 2 ↔ d.seconds.toRat < (60 * minutes + 59 : ℕ) + 1 / 2 := by
    rw [remainder, hfloor, Int.cast_natCast]
    push_cast
    constructor <;> intro hlt <;> linarith
  rw [hmeasured, toRat_seconds_lt_half_iff h]
  rw [second] at *
  omega

/-! ## Bounds of printed figures -/

variable {count left : ℕ} {whole : String}

theorem figures_eq_of_text_eq {f : Figures} (h : d.text = f.text) : d.figures = f :=
  Figures.text_injective (d.text_eq.symm.trans h)

theorem of_figures_eq_milliseconds (h : d.figures = .milliseconds count) :
    d.nanoseconds < second ∧ count = d.millisecondCount := by
  rw [figures] at h
  split at h
  next hsecond =>
    obtain rfl := Figures.milliseconds.inj h
    exact ⟨toRat_seconds_lt_one_iff.1 hsecond, rfl⟩
  next => split at h <;> cases h

theorem of_figures_eq_tenths (h : d.figures = .tenths count) :
    second ≤ d.nanoseconds ∧ d.nanoseconds < 60 * second ∧ count = d.tenthCount := by
  rw [figures] at h
  split at h
  next => cases h
  next hsecond =>
    split at h
    next hminute =>
      obtain rfl := Figures.tenths.inj h
      exact ⟨not_lt.1 (toRat_seconds_lt_one_iff.not.1 hsecond),
        toRat_seconds_lt_sixty_iff.1 hminute, rfl⟩
    next => cases h

theorem of_figures_eq_minutes (h : d.figures = .minutes whole left) :
    60 * second ≤ d.nanoseconds ∧ left = d.secondCount := by
  rw [figures] at h
  split at h
  next => cases h
  next =>
    split at h
    next => cases h
    next hminute =>
      obtain ⟨-, rfl⟩ := Figures.minutes.inj h
      exact ⟨not_lt.1 (toRat_seconds_lt_sixty_iff.not.1 hminute), rfl⟩

/-- Every duration is printed in milliseconds, in seconds with tenths, or in minutes and seconds.
The figure before the unit is never above the next unit, and it is less except for durations that
are no more than half of the last printed place below that unit: from 999.5 milliseconds on, from
59.95 seconds on, and from 59.5 measured seconds after a full minute on. What is measured after a
full minute differs from the exact rest in this respect only from `2 ^ 24` seconds on. -/
theorem figures_overflow_iff (d : Duration) :
    (∃ f : Figures, d.text = f.text) ∧
    (∀ count, d.text = (Figures.milliseconds count).text →
      d.nanoseconds < second ∧ count ≤ 1000 ∧
      (count < 1000 ↔ d.nanoseconds < 999500000)) ∧
    (∀ count, d.text = (Figures.tenths count).text →
      second ≤ d.nanoseconds ∧ d.nanoseconds < 60 * second ∧ count ≤ 600 ∧
      (count < 600 ↔ d.nanoseconds < 59950000000)) ∧
    ∀ whole left, d.text = (Figures.minutes whole left).text →
      60 * second ≤ d.nanoseconds ∧ left ≤ 60 ∧
      (left < 60 ↔ d.remainder < 119 / 2) ∧
      (d.nanoseconds < 2 ^ 24 * second →
        (left < 60 ↔ d.nanoseconds % (60 * second) < 59500000000)) := by
  refine ⟨⟨d.figures, d.text_eq⟩, fun count h => ?_, fun count h => ?_, fun whole left h => ?_⟩
  · obtain ⟨hsecond, rfl⟩ := of_figures_eq_milliseconds (figures_eq_of_text_eq h)
    exact ⟨hsecond, millisecondCount_bounds hsecond⟩
  · obtain ⟨hsecond, hminute, rfl⟩ := of_figures_eq_tenths (figures_eq_of_text_eq h)
    exact ⟨hsecond, hminute, tenthCount_bounds hminute⟩
  · obtain ⟨hminute, rfl⟩ := of_figures_eq_minutes (figures_eq_of_text_eq h)
    obtain ⟨hle, hlt⟩ := d.secondCount_bounds
    exact ⟨hminute, hle, hlt, fun h => hlt.trans (remainder_lt_iff h)⟩

/-- A nanosecond below each boundary, the figure is less than the next unit. -/
theorem figures_at_boundaries :
    ((Duration.mk 999499999).text = (Figures.milliseconds 999).text ∧ 999 < 1000) ∧
    ((Duration.mk 59949999999).text = (Figures.tenths 599).text ∧ 599 < 600) ∧
    (Duration.mk 119499999999).text = (Figures.minutes "1" 59).text ∧ 59 < 60 := by
  have hmilliseconds : (Duration.mk 999499999).text = (Figures.milliseconds 999).text := by
    decide +kernel
  have htenths : (Duration.mk 59949999999).text = (Figures.tenths 599).text := by decide +kernel
  have hminutes : (Duration.mk 119499999999).text = (Figures.minutes "1" 59).text := by
    decide +kernel
  obtain ⟨-, -, hbelow⟩ := (figures_overflow_iff ⟨999499999⟩).2.1 999 hmilliseconds
  obtain ⟨-, -, -, hbelow'⟩ := (figures_overflow_iff ⟨59949999999⟩).2.2.1 599 htenths
  obtain ⟨-, -, -, hbelow''⟩ := (figures_overflow_iff ⟨119499999999⟩).2.2.2 "1" 59 hminutes
  exact ⟨⟨hmilliseconds, hbelow.2 (by decide)⟩, ⟨htenths, hbelow'.2 (by decide)⟩, hminutes,
    (hbelow'' (by decide)).2 (by decide)⟩

/-- A duration just below a second is printed as a thousand milliseconds, one just below a minute as
sixty seconds, and one just below two minutes as a minute and sixty seconds. -/
theorem figures_overflow :
    (Duration.mk 999600000).text = "1000ms" ∧ (Duration.mk 59960000000).text = "60.0s" ∧
    (Duration.mk 119600000000).text = "1m 60s" := by
  decide +kernel

end Duration

end MutationRules
