import MutationRules.Descriptor.Basic
import MutationRules.Text.Style

/-!
# Report of a classification

How the mutants of a descriptor are distributed over classes.
-/

namespace MutationRules

/-- The figures of a classification. -/
structure ClassificationReport where
  /-- The level of the classes. -/
  level : Int
  /-- The number of mutants. -/
  considered : Nat
  /-- The number of mutants of each class. -/
  counts : OrderedMap String Nat
  deriving DecidableEq

namespace ClassificationReport

open Text

/-- The figures of some classes. -/
def ofClasses (classes : List MutantClass) (level : Int) : ClassificationReport where
  level := level
  considered := classes.length
  counts := MutantClass.histogram classes

/-- The percentage of the mutants, as a double: the rounded quotient, times one hundred. -/
def share (r : ClassificationReport) (count : Nat) : Binary64 :=
  ((Binary64.ofNat count).div (.ofNat (max r.considered 1))).mul (.ofNat 100)

/-- The report in words. -/
def lines (r : ClassificationReport) (color : Bool) : List String :=
  ["",
    paint color [.bold] "Mutant Classification Report" ++ " " ++
      paint color [.dim] ("(level " ++ toString r.level ++ ")"),
    "".pushn '=' 60,
    ""] ++
  (r.counts.entries.map fun (label, count) =>
    padLeft 7 count.repr ++ " " ++ padLeft 6 (fixedPlaces 1 (r.share count).toRat) ++ "%  " ++
      label) ++
  ["",
    paint color [.bold] "Summary",
    "".pushn '-' 40,
    "Mutants:           " ++ r.considered.repr,
    "Classes:           " ++ r.counts.size.repr]

end ClassificationReport

end MutationRules
