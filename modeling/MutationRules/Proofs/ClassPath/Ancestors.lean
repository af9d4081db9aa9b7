import MutationRules.Proofs.ClassPath

/-!
# Ancestors of a class path

The ancestors of a path are what is left of it without its last segments, from the path
itself to its root. Of two ancestors the text of the longer one goes on with a divider
where the shorter one ends; so their texts differ, and those of their pairs do, whatever
characters the segments hold.
-/

namespace MutationRules.ClassPath

variable {path matched replacement a b m m' r r' : ClassPath}

/-! ## The ancestors in order -/

@[simp] theorem depth_truncated (path : ClassPath) (count : Nat) :
    (path.truncated count).depth = max (path.depth - count) 1 := by
  have hpos := path.depth_pos
  rw [truncated, depth, segments_upTo, List.length_take]
  change min (max (path.depth - count) 1) path.depth = _
  omega

@[simp] theorem truncated_zero (path : ClassPath) : path.truncated 0 = path := by
  apply ext_segments
  have hpos := path.depth_pos
  rw [truncated, segments_upTo, List.take_of_length_le]
  change path.depth ≤ _
  omega

/-- The ancestors of a path drop no segment, one, two and so on, but never the root. -/
theorem ancestors_eq (path : ClassPath) :
    path.ancestors = (List.range path.depth).map path.truncated := by
  apply List.ext_getElem
  · simp
  · intro i hi _
    rw [length_ancestors] at hi
    have hkeep : path.depth - 1 - i + 1 = path.depth - i := by omega
    simp [ancestors, truncated, hkeep]

theorem getElem?_ancestors {i : Nat} (hi : i < path.depth) :
    path.ancestors[i]? = some (path.truncated i) := by
  simp [ancestors_eq, hi]

/-- What is left of a path is an ancestor, however many segments are to be dropped. -/
theorem exists_truncated_eq (path : ClassPath) (count : Nat) :
    ∃ dropped < path.depth, path.truncated count = path.truncated dropped := by
  have hpos := path.depth_pos
  by_cases hcount : count < path.depth
  · exact ⟨count, hcount, rfl⟩
  · refine ⟨path.depth - 1, by omega, ext_segments ?_⟩
    have hkeep : max (path.depth - count) 1 = max (path.depth - (path.depth - 1)) 1 := by omega
    rw [truncated, truncated, segments_upTo, segments_upTo, hkeep]

/-- A path starts with each of its ancestors. -/
theorem startsWith_of_mem_ancestors (h : a ∈ path.ancestors) : path.startsWith a = true := by
  rw [ancestors_eq] at h
  obtain ⟨count, _, rfl⟩ := List.mem_map.1 h
  exact startsWith_truncated path count

/-- No ancestor is repeated, since each is shorter than those before it. -/
theorem nodup_ancestors (path : ClassPath) : path.ancestors.Nodup := by
  rw [ancestors_eq]
  refine List.Nodup.map_on (fun i hi j hj h => ?_) List.nodup_range
  have hdepth := congrArg depth h
  rw [List.mem_range] at hi hj
  rw [depth_truncated, depth_truncated] at hdepth
  omega

/-! ## The root -/

/-- The first segment. -/
def root (path : ClassPath) : String := path.segments.head path.segments_ne_nil

/-- Only the root is left without all other segments. -/
theorem text_truncated_pred (path : ClassPath) :
    (path.truncated (path.depth - 1)).text = path.root := by
  have hpos := path.depth_pos
  have hkeep : path.depth - (path.depth - 1) = 1 := by omega
  obtain ⟨first, rest, hsegments⟩ := List.exists_cons_of_ne_nil path.segments_ne_nil
  simp [truncated, hkeep, text, root, hsegments]

/-! ## Texts of ancestors -/

/-- Of two starts of one path, one starts with the other. -/
theorem startsWith_total (ha : path.startsWith a = true) (hb : path.startsWith b = true) :
    b.startsWith a = true ∨ a.startsWith b = true := by
  rw [startsWith_iff] at ha hb
  rw [startsWith_iff, startsWith_iff]
  exact List.prefix_or_prefix_of_prefix ha hb

/-- The text of a path that is longer than its start goes on with a divider. -/
theorem eq_or_toList_text_of_startsWith (h : b.startsWith a = true) :
    b = a ∨ ∃ rest, b.text.toList = a.text.toList ++ separator :: rest := by
  obtain ⟨more, hmore⟩ := startsWith_iff.1 h
  cases more with
  | nil => exact Or.inl (ext_segments (by simpa using hmore.symm))
  | cons next more =>
    right
    obtain ⟨first, others, hsegments⟩ := List.exists_cons_of_ne_nil a.segments_ne_nil
    refine ⟨next.toList ++ (more.map String.toList).flatMap (separator :: ·), ?_⟩
    rw [toList_text, toList_text, ← hmore, hsegments, List.cons_append, List.map_cons,
      List.map_cons, Text.intercalate_cons, Text.intercalate_cons]
    simp

/-- Starts of one path are told apart by the texts that they begin, if no divider follows them. -/
theorem eq_of_append_text_eq (ha : path.startsWith a = true) (hb : path.startsWith b = true)
    {x y : List Char} (hx : x.head? ≠ some separator) (hy : y.head? ≠ some separator)
    (h : a.text.toList ++ x = b.text.toList ++ y) : a = b ∧ x = y := by
  -- a longer text would have a divider where the shorter one has none
  have hlonger : ∀ {a b : ClassPath} {x y : List Char}, x.head? ≠ some separator →
      b.startsWith a = true → a.text.toList ++ x = b.text.toList ++ y → b = a := by
    intro a b x y hx hstarts h
    rcases eq_or_toList_text_of_startsWith hstarts with hsame | ⟨rest, hrest⟩
    · exact hsame
    · rw [hrest, List.append_assoc] at h
      have hdivider := List.append_cancel_left h
      exact absurd (congrArg List.head? hdivider) hx
  have hsame : a = b := by
    rcases startsWith_total ha hb with hstarts | hstarts
    · exact (hlonger hx hstarts h).symm
    · exact hlonger hy hstarts h.symm
  rw [hsame] at h
  exact ⟨hsame, List.append_cancel_left h⟩

/-- Pairs of starts of two paths are told apart by their texts. -/
theorem eq_of_pairText_eq_of_startsWith (hm : matched.startsWith m = true)
    (hm' : matched.startsWith m' = true) (hr : replacement.startsWith r = true)
    (hr' : replacement.startsWith r' = true) (h : m.pairText r = m'.pairText r') :
    m = m' ∧ r = r' := by
  have htext := congrArg String.toList h
  rw [toList_pairText, toList_pairText] at htext
  have hmark : ∀ text : List Char,
      (RuleName.sideSeparator :: text).head? ≠ some separator := by
    intro text
    simp [RuleName.sideSeparator, separator]
  obtain ⟨hsame, hsides⟩ := eq_of_append_text_eq hm hm' (hmark _) (hmark _) htext
  have hrest : r.text.toList ++ [] = r'.text.toList ++ [] := by
    simpa using hsides
  exact ⟨hsame, (eq_of_append_text_eq hr hr' (by simp) (by simp) hrest).1⟩

end MutationRules.ClassPath
