/-!
# Class paths

An operator's class is a path of segments from a broad category down to the operator itself. Paths
are shortened from the leaf end and keep their root, so every shortening is an ancestor.
-/

namespace MutationRules

/-- A non-empty list of segments, root first. -/
structure ClassPath where
  /-- The segments, root first. -/
  segments : List String
  /-- There is a root. -/
  segments_ne_nil : segments ≠ []
  deriving DecidableEq, Repr

namespace ClassPath

/-- Divides the segments of a path in its text. -/
def separator : Char := '/'

/-- The path of the given segments, refused if there are none or one of them is empty. -/
def ofSegments? (segments : List String) : Option ClassPath :=
  if h : segments ≠ [] ∧ "" ∉ segments then some ⟨segments, h.1⟩ else none

/-- Read a path whose segments are divided by `/`. -/
def parse? (text : String) : Option ClassPath :=
  ofSegments? ((text.toList.splitOn separator).map String.ofList)

/-- The segments, divided by `/`. -/
def text (path : ClassPath) : String := String.intercalate separator.toString path.segments

/-- The number of segments. -/
def depth (path : ClassPath) : Nat := path.segments.length

theorem depth_pos (path : ClassPath) : 0 < path.depth :=
  List.length_pos_iff.2 path.segments_ne_nil

/-- The last segment. -/
def leaf (path : ClassPath) : String := path.segments.getLast path.segments_ne_nil

/-- The segment at a position counted from the root. -/
def segment? (path : ClassPath) (position : Nat) : Option String := path.segments[position]?

/-- The path of the first `keep` segments, and of the root at least. -/
def upTo (path : ClassPath) (keep : Nat) : ClassPath where
  segments := path.segments.take (max keep 1)
  segments_ne_nil := by
    rw [Ne, List.take_eq_nil_iff, not_or]
    exact ⟨by omega, path.segments_ne_nil⟩

@[simp] theorem segments_upTo (path : ClassPath) (keep : Nat) :
    (path.upTo keep).segments = path.segments.take (max keep 1) := rfl

/-- The path without its last `count` segments, but with its root. -/
def truncated (path : ClassPath) (count : Nat) : ClassPath := path.upTo (path.depth - count)

/-- The path with one more segment at the end. -/
def child (path : ClassPath) (segment : String) : ClassPath :=
  ⟨path.segments ++ [segment], by simp⟩

@[simp] theorem leaf_child (path : ClassPath) (segment : String) :
    (path.child segment).leaf = segment := by
  simp [leaf, child]

/-- The path itself, then each parent up to the root. -/
def ancestors (path : ClassPath) : List ClassPath :=
  (List.range path.depth).reverse.map fun dropped => path.upTo (dropped + 1)

@[simp] theorem length_ancestors (path : ClassPath) : path.ancestors.length = path.depth := by
  simp [ancestors]

/-- Whether another path's segments come first in this one. -/
def startsWith (path start : ClassPath) : Bool := start.segments.isPrefixOf path.segments

/-- Paths are ordered segment by segment. -/
instance : Ord ClassPath := ⟨compareOn segments⟩

end ClassPath

end MutationRules
