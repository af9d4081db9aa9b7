import MutationRules.Number.Binary64

/-!
# Durations in words

A duration is measured in seconds as a double and written in the unit that its exact value suggests:
milliseconds below one second, seconds below one minute, otherwise minutes and seconds.
-/

namespace MutationRules

/-- A length of time. -/
structure Duration where
  /-- The length in nanoseconds. -/
  nanoseconds : Nat
  deriving DecidableEq, Repr

namespace Duration

/-- The number of nanoseconds in a second. -/
def second : Nat := 1000000000

/-- The duration of a number of microseconds. -/
def ofMicroseconds (n : Nat) : Duration := ⟨n * 1000⟩

/-- The whole seconds and the fraction of a second, each rounded, and their rounded sum. -/
def seconds (d : Duration) : Binary64 :=
  (Binary64.ofNat (d.nanoseconds / second)).add
    ((Binary64.ofNat (d.nanoseconds % second)).div (.ofNat second))

/-- A whole number: the fewest digits that read back, then zeros. -/
def wholeText (v : Binary64) : String :=
  let decimal := v.shortest
  decimal.digits.repr.pushn '0' decimal.exponent.toNat

/-- The duration in words. -/
def text (d : Duration) : String :=
  let seconds := d.seconds
  if seconds.toRat < 1 then fixedPlaces 0 (seconds.mul (.ofNat 1000)).toRat ++ "ms"
  else if seconds.toRat < 60 then fixedPlaces 1 seconds.toRat ++ "s"
  else
    let minute := Binary64.ofNat 60
    let minutes := Binary64.ofNat (seconds.div minute).floor
    wholeText minutes ++ "m " ++ fixedPlaces 0 (seconds.mod minute).toRat ++ "s"

end Duration

end MutationRules
