import MutationRules.Classification.Classes
import MutationRules.Proofs.RuleName.Codec
import MutationRules.Proofs.Taxonomy.Build
import MutationRules.Proofs.Text.Pieces

/-!
# Class paths and their texts

A path is shortened to one of its starts, and twice to that of both shortenings at once.
The text of a path ends in its leaf. A path whose segments hold no divider is read back
from its text, and so are the two paths of a class.
-/

namespace MutationRules

namespace ClassPath

variable {path matched replacement : ClassPath}

/-! ## Starts of a path -/

theorem ext_segments {a b : ClassPath} (h : a.segments = b.segments) : a = b := by
  obtain ⟨segments, _⟩ := a
  obtain ⟨segments', _⟩ := b
  obtain rfl : segments = segments' := h
  rfl

theorem startsWith_iff {start : ClassPath} :
    path.startsWith start = true ↔ start.segments <+: path.segments := by
  rw [startsWith, List.isPrefixOf_iff_prefix]

theorem startsWith_self (path : ClassPath) : path.startsWith path = true :=
  startsWith_iff.2 (List.prefix_refl _)

theorem startsWith_trans {a b c : ClassPath} (hab : b.startsWith a = true)
    (hbc : c.startsWith b = true) : c.startsWith a = true :=
  startsWith_iff.2 ((startsWith_iff.1 hab).trans (startsWith_iff.1 hbc))

/-- A path has an ancestor. -/
theorem exists_ancestors_eq_cons (path : ClassPath) :
    ∃ first rest, path.ancestors = first :: rest :=
  List.exists_cons_of_length_pos (path.length_ancestors ▸ path.depth_pos)

/-- A path starts with what is left of it. -/
theorem startsWith_truncated (path : ClassPath) (count : Nat) :
    path.startsWith (path.truncated count) = true :=
  startsWith_iff.2 (List.take_prefix _ _)

theorem startsWith_child (path : ClassPath) (segment : String) :
    (path.child segment).startsWith path = true :=
  startsWith_iff.2 (List.prefix_append _ _)

/-- The root is kept however often a path is shortened. -/
theorem truncated_truncated (path : ClassPath) (a b : Nat) :
    (path.truncated a).truncated b = path.truncated (a + b) := by
  apply ext_segments
  have hdepth : (path.truncated a).depth = min (max (path.depth - a) 1) path.depth := by
    simp [truncated, depth]
  have hpos := path.depth_pos
  have hkeep : min (max ((path.truncated a).depth - b) 1) (max (path.depth - a) 1) =
      max (path.depth - (a + b)) 1 := by
    omega
  calc ((path.truncated a).truncated b).segments
      = (path.segments.take (max (path.depth - a) 1)).take
          (max ((path.truncated a).depth - b) 1) := rfl
    _ = (path.truncated (a + b)).segments := by
      rw [List.take_take, hkeep]
      rfl

theorem child_injective (segment : String) : (child · segment).Injective := by
  intro a b h
  exact ext_segments (List.append_cancel_right (congrArg segments h))

/-! ## Texts of paths -/

theorem toList_text (path : ClassPath) :
    path.text.toList = [separator].intercalate (path.segments.map String.toList) := by
  simp [text, String.toList_intercalate]

theorem toList_pairText (matched replacement : ClassPath) :
    (matched.pairText replacement).toList =
      matched.text.toList ++ RuleName.sideSeparator :: replacement.text.toList := by
  simp [pairText]

/-- The text of a longer path has one more segment behind a divider. -/
theorem toList_text_child (path : ClassPath) (segment : String) :
    (path.child segment).text.toList = path.text.toList ++ separator :: segment.toList := by
  obtain ⟨root, rest, hsegments⟩ := List.exists_cons_of_ne_nil path.segments_ne_nil
  have hchild : (path.child segment).segments = root :: (rest ++ [segment]) :=
    congrArg (· ++ [segment]) hsegments
  rw [toList_text, toList_text, hchild, hsegments, List.map_cons, List.map_cons,
    Text.intercalate_cons, Text.intercalate_cons]
  simp

/-- A path is its leaf alone or the child of its parent. -/
theorem eq_leaf_or_child (path : ClassPath) :
    path.text = path.leaf ∨ ∃ parent : ClassPath, path = parent.child path.leaf := by
  have hsplit : path.segments.dropLast ++ [path.leaf] = path.segments :=
    List.dropLast_append_getLast path.segments_ne_nil
  by_cases hparent : path.segments.dropLast = []
  · left
    rw [hparent, List.nil_append] at hsplit
    rw [text, ← hsplit]
    rfl
  · exact Or.inr ⟨⟨_, hparent⟩, ext_segments hsplit.symm⟩

/-- A class ends in the leaf of the replacing path, behind a divider. -/
theorem exists_pairText_leaf (matched replacement : ClassPath) :
    ∃ front divider, divider ∈ [separator, RuleName.sideSeparator] ∧
      (matched.pairText replacement).toList = front ++ divider :: replacement.leaf.toList := by
  rcases replacement.eq_leaf_or_child with hleaf | ⟨parent, hchild⟩
  · refine ⟨matched.text.toList, RuleName.sideSeparator, by simp, ?_⟩
    rw [toList_pairText, hleaf]
  · refine ⟨matched.text.toList ++ RuleName.sideSeparator :: parent.text.toList, separator,
      by simp, ?_⟩
    rw [toList_pairText]
    conv_lhs => rw [hchild, toList_text_child]
    simp

/-! ## Reading paths -/

/-- Whether the text of a segment can be told from the text around it in a class. -/
def IsSegment (segment : String) : Prop :=
  segment ≠ "" ∧ separator ∉ segment.toList ∧ RuleName.sideSeparator ∉ segment.toList

instance : DecidablePred IsSegment := fun segment =>
  inferInstanceAs (Decidable (segment ≠ "" ∧ _ ∧ _))

/-- Whether the segments of a path can be told apart in the text of a class. -/
def IsReadable (path : ClassPath) : Prop := ∀ segment ∈ path.segments, IsSegment segment

theorem isSegment_swapMarker : IsSegment swapMarker := by decide

theorem isSegment_token (op : Operator) : IsSegment op.token := by
  obtain ⟨hempty, hplain⟩ := isPlain_token op
  have hseparator : ∀ op ∈ Operator.all, separator ∉ op.token.toList := by decide +kernel
  refine ⟨hempty, hseparator op op.mem_all, fun hside => ?_⟩
  exact (hplain _ hside).2 (by decide)

/-- No operator is called like the mark for exchanged operands. -/
theorem swapMarker_ne_token (op : Operator) : swapMarker ≠ op.token := by
  have hall : ∀ op ∈ Operator.all, swapMarker ≠ op.token := by decide +kernel
  exact hall op op.mem_all

theorem IsReadable.truncated (h : path.IsReadable) (count : Nat) :
    (path.truncated count).IsReadable :=
  fun segment hs => h segment (List.mem_of_mem_take hs)

theorem IsReadable.child (h : path.IsReadable) {segment : String} (hs : IsSegment segment) :
    (path.child segment).IsReadable :=
  List.forall_mem_append.2 ⟨h, List.forall_mem_singleton.2 hs⟩

/-- The segments of a path that is read from a text are the pieces of the text, none of them
empty. -/
theorem parse?_eq_some_iff {text : String} : parse? text = some path ↔
    "" ∉ path.segments ∧ path.segments.map String.toList = text.toList.splitOn separator := by
  rw [parse?, ofSegments?_eq_some_iff]
  constructor
  · rintro ⟨hempty, hsegments⟩
    rw [hsegments]
    exact ⟨hempty, by simp⟩
  · rintro ⟨hempty, hpieces⟩
    have hsegments : path.segments = (text.toList.splitOn separator).map String.ofList := by
      simp [← hpieces]
    rw [← hsegments]
    exact ⟨hempty, rfl⟩

/-- A text that is read is the text of its path. -/
theorem text_of_parse? {text : String} (h : parse? text = some path) : path.text = text := by
  apply String.toList_inj.1
  rw [toList_text, (parse?_eq_some_iff.1 h).2]
  exact List.intercalate_splitOn separator

/-- A path is read back from its text if its segments are neither empty nor divided. -/
theorem parse?_text_iff : parse? path.text = some path ↔
    "" ∉ path.segments ∧ ∀ segment ∈ path.segments, separator ∉ segment.toList := by
  rw [parse?_eq_some_iff, toList_text]
  refine and_congr_right fun _ => ⟨fun hpieces segment hs => ?_, fun hplain => ?_⟩
  · have hpiece : segment.toList ∈ path.segments.map String.toList := List.mem_map_of_mem hs
    rw [hpieces] at hpiece
    exact Text.not_mem_of_mem_splitOn hpiece
  · refine (List.splitOn_intercalate _ ?_ (by simpa using path.segments_ne_nil)).symm
    exact List.forall_mem_map.2 hplain

/-- A path without dividers in its segments is read back from its text. -/
theorem IsReadable.parse?_text (h : path.IsReadable) : parse? path.text = some path :=
  parse?_text_iff.2 ⟨fun hempty => (h "" hempty).1 rfl, fun segment hs => (h segment hs).2.1⟩

/-- No side separator is in the text of a path that is read back. -/
theorem IsReadable.sideSeparator_not_mem (h : path.IsReadable) :
    RuleName.sideSeparator ∉ path.text.toList := by
  rw [toList_text, RuleName.mem_intercalate_iff (by decide)]
  rintro ⟨_, hpart, hmem⟩
  obtain ⟨segment, hs, rfl⟩ := List.mem_map.1 hpart
  exact (h segment hs).2.2 hmem

/-- Read the two paths of a class. -/
def parsePair? (text : String) : Option (ClassPath × ClassPath) :=
  match text.toList.splitOn RuleName.sideSeparator with
  | [matched, replacement] => do
    return (← parse? (.ofList matched), ← parse? (.ofList replacement))
  | _ => none

/-- The two paths of a class are read back from its text. -/
theorem parsePair?_pairText (hm : matched.IsReadable) (hr : replacement.IsReadable) :
    parsePair? (matched.pairText replacement) = some (matched, replacement) := by
  have hsplit : (matched.pairText replacement).toList.splitOn RuleName.sideSeparator =
      [matched.text.toList, replacement.text.toList] := by
    rw [Text.splitOn_eq_cons_iff, toList_pairText]
    exact ⟨by simp, hm.sideSeparator_not_mem, by simpa using hr.sideSeparator_not_mem⟩
  rw [parsePair?, hsplit]
  simp [hm.parse?_text, hr.parse?_text]

/-- Paths that are read back are told apart by the text of their class. -/
theorem eq_of_pairText_eq {matched' replacement' : ClassPath} (hm : matched.IsReadable)
    (hr : replacement.IsReadable) (hm' : matched'.IsReadable) (hr' : replacement'.IsReadable)
    (h : matched.pairText replacement = matched'.pairText replacement') :
    matched = matched' ∧ replacement = replacement' := by
  have hread := congrArg parsePair? h
  rw [parsePair?_pairText hm hr, parsePair?_pairText hm' hr'] at hread
  simpa using hread

/-- A class that ends in a segment behind a divider has it as the leaf of its replacing path. -/
theorem leaf_eq_of_suffix (hleaf : IsSegment replacement.leaf) {segment : String}
    (hsegment : IsSegment segment)
    (h : (separator :: segment.toList) <:+ (matched.pairText replacement).toList) :
    replacement.leaf = segment := by
  obtain ⟨front, hfront⟩ := h
  obtain ⟨front', divider, hdivider, htext⟩ := exists_pairText_leaf matched replacement
  have hfree : ∀ {s : String}, IsSegment s → ∀ c ∈ s.toList,
      decide (c ∈ [separator, RuleName.sideSeparator]) = false := by
    rintro s ⟨_, hseparator, hside⟩ c hc
    rw [decide_eq_false_iff_not]
    intro hmem
    rcases List.mem_pair.1 hmem with rfl | rfl
    · exact hseparator hc
    · exact hside hc
  apply String.toList_inj.1
  exact Text.eq_of_append_last_cons_eq (by simpa using hdivider) (by decide) (hfree hleaf)
    (hfree hsegment) (htext.symm.trans hfront.symm)

end ClassPath

end MutationRules
