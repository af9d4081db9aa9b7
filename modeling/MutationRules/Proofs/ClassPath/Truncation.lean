import MutationRules.Proofs.ClassPath.Ancestors

/-!
# Shortened paths and starts

What is dropped from a path by shortening it adds up, until only the root is left. So the
starts of a path, its ancestors and what is left of it are the same paths, and the longest
of them that is not the path itself undoes an extension.
-/

namespace MutationRules.ClassPath

variable {path start : ClassPath}

/-- A shortened path lacks as many of the last segments as were to be dropped, but keeps its
root. -/
theorem segments_truncated_append (path : ClassPath) (count : Nat) :
    ∃ dropped, (path.truncated count).segments ++ dropped = path.segments ∧
      dropped.length = min count (path.depth - 1) := by
  refine ⟨path.segments.drop (max (path.depth - count) 1), List.take_append_drop .., ?_⟩
  have hpos := path.depth_pos
  rw [List.length_drop]
  change path.depth - max (path.depth - count) 1 = _
  omega

/-- A start is what is left when the segments behind it are dropped. -/
theorem truncated_eq_of_startsWith (h : path.startsWith start = true) :
    path.truncated (path.depth - start.depth) = start := by
  have hprefix := startsWith_iff.1 h
  have hle : start.depth ≤ path.depth := hprefix.length_le
  have hpos := start.depth_pos
  have hkeep : max (path.depth - (path.depth - start.depth)) 1 = start.segments.length := by
    change _ = start.depth
    omega
  apply ext_segments
  rw [truncated, segments_upTo, hkeep]
  exact (List.prefix_iff_eq_take.1 hprefix).symm

/-- The starts of a path are its ancestors. -/
theorem startsWith_iff_mem_ancestors : path.startsWith start = true ↔ start ∈ path.ancestors := by
  constructor
  · intro h
    have hpos := start.depth_pos
    have hpath := path.depth_pos
    rw [ancestors_eq, List.mem_map]
    refine ⟨path.depth - start.depth, ?_, truncated_eq_of_startsWith h⟩
    rw [List.mem_range]
    omega
  · exact startsWith_of_mem_ancestors

/-- An extension is undone by dropping one segment. -/
theorem truncated_one_child (path : ClassPath) (segment : String) :
    (path.child segment).truncated 1 = path := by
  have hdepth : (path.child segment).depth - path.depth = 1 := by
    simp [depth, child]
  rw [← hdepth]
  exact truncated_eq_of_startsWith (startsWith_child path segment)

/-- Segments that are dropped in two steps add up, as long as the root is kept. The ancestors of a
path are what is left of it when no segment is dropped, one, two and so on up to the root; they are
its starts. One dropped segment undoes an extension. -/
theorem truncations_compose (path : ClassPath) :
    (∀ a b, ∃ dropped, ((path.truncated a).truncated b).segments ++ dropped = path.segments ∧
      dropped.length = min (a + b) (path.depth - 1)) ∧
    path.ancestors = (List.range path.depth).map path.truncated ∧
    (∀ longer : ClassPath, longer.startsWith path = true ↔ path ∈ longer.ancestors) ∧
    ∀ segment, (path.child segment).truncated 1 = path := by
  refine ⟨fun a b => ?_, ancestors_eq path, fun longer => startsWith_iff_mem_ancestors,
    truncated_one_child path⟩
  rw [truncated_truncated]
  exact segments_truncated_append path (a + b)

end MutationRules.ClassPath
