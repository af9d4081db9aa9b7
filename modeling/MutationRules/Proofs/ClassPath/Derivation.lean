import MutationRules.Proofs.ClassPath.Ancestors

/-!
# Derived paths

A path is made from a text or from its segments and may then be extended, shortened or
replaced by an ancestor any number of times. No step but an extension adds a segment, so an
empty segment, or one with the character that divides segments, is in a path only if it was
given as one. All other paths are read back from their texts.
-/

namespace MutationRules.ClassPath

variable {path next : ClassPath}

/-! ## Derivations -/

/-- What a path is made from. -/
inductive Source
  /-- The text of a path. -/
  | text (written : String)
  /-- The segments of a path, root first. -/
  | segments (given : List String)
  deriving DecidableEq, Repr

/-- The path that is made from a source, if it is not refused. -/
def Source.path? : Source → Option ClassPath
  | .text written => parse? written
  | .segments given => ofSegments? given

/-- What makes a path from another one. -/
inductive Step
  /-- One more segment at the end. -/
  | child (segment : String)
  /-- All segments but the last ones, and the root at least. -/
  | truncated (count : Nat)
  /-- The ancestor at a position, counted from the path itself. -/
  | ancestor (position : Nat)
  deriving DecidableEq, Repr

/-- The path that a step makes, if there is an ancestor at its position. -/
def Step.apply? (path : ClassPath) : Step → Option ClassPath
  | .child added => some (path.child added)
  | .truncated count => some (path.truncated count)
  | .ancestor position => path.ancestors[position]?

/-- The path that is made from a source step by step. -/
def derive? (source : Source) (steps : List Step) : Option ClassPath :=
  source.path?.bind (steps.foldlM Step.apply?)

/-! ## Segments of derived paths -/

/-- A source that is accepted has no empty segment, and one with a divider only if it is given by
its segments. -/
theorem Source.segments_of_path? {source : Source} (h : source.path? = some path) :
    "" ∉ path.segments ∧ ∀ segment ∈ path.segments, separator ∈ segment.toList →
      ∃ segments, source = .segments segments ∧ segment ∈ segments := by
  cases source with
  | text text =>
    have hread : parse? text = some path := h
    rw [← text_of_parse? hread, parse?_text_iff] at hread
    obtain ⟨hempty, hplain⟩ := hread
    exact ⟨hempty, fun segment hs hdivider => absurd hdivider (hplain segment hs)⟩
  | segments segments =>
    obtain ⟨hempty, hsegments⟩ := ofSegments?_eq_some_iff.1 h
    rw [hsegments]
    exact ⟨hempty, fun segment hs _ => ⟨segments, rfl, hs⟩⟩

/-- A step adds no segment but the one that extends a path. -/
theorem Step.mem_segments {step : Step} (h : step.apply? path = some next) {segment : String}
    (hs : segment ∈ next.segments) : segment ∈ path.segments ∨ step = .child segment := by
  cases step with
  | child added =>
    obtain rfl := Option.some.inj h
    rcases List.mem_append.1 hs with hold | hadded
    · exact Or.inl hold
    · obtain rfl := List.mem_singleton.1 hadded
      exact Or.inr rfl
  | truncated count =>
    obtain rfl := Option.some.inj h
    exact Or.inl (List.mem_of_mem_take hs)
  | ancestor position =>
    have hstarts := startsWith_of_mem_ancestors (List.mem_of_getElem? h)
    exact Or.inl ((startsWith_iff.1 hstarts).subset hs)

/-- Steps add no segments but those that extend a path. -/
theorem mem_segments_of_steps {steps : List Step}
    (h : steps.foldlM Step.apply? path = some next) {segment : String}
    (hs : segment ∈ next.segments) : segment ∈ path.segments ∨ .child segment ∈ steps := by
  induction steps generalizing path with
  | nil =>
    obtain rfl := Option.some.inj h
    exact Or.inl hs
  | cons step steps ih =>
    rw [List.foldlM_cons] at h
    obtain ⟨middle, hstep, hsteps⟩ := Option.bind_eq_some_iff.1 h
    rcases ih hsteps with hmiddle | hlater
    · rcases Step.mem_segments hstep hmiddle with hfirst | rfl
      · exact Or.inl hfirst
      · exact Or.inr (List.mem_cons_self ..)
    · exact Or.inr (List.mem_cons_of_mem _ hlater)

/-! ## Texts of derived paths -/

/-- However a path is derived, a segment of it is empty only if a step adds it, and has a divider
only if it is one of the segments that the source consists of or that a step adds. A path with no
empty segment is read back from its text if and only if no segment has a divider. A text that is
read is the text of its path. -/
theorem derived_read_back :
    (∀ source steps path, derive? source steps = some path →
      ("" ∈ path.segments → .child "" ∈ steps) ∧
      (∀ segment ∈ path.segments, separator ∈ segment.toList →
        (∃ segments, source = .segments segments ∧ segment ∈ segments) ∨
          .child segment ∈ steps) ∧
      ("" ∉ path.segments → (parse? path.text = some path ↔
        ∀ segment ∈ path.segments, separator ∉ segment.toList))) ∧
    ∀ text path, parse? text = some path → path.text = text := by
  refine ⟨fun source steps path h => ?_, fun text path => text_of_parse?⟩
  obtain ⟨start, hsource, hsteps⟩ := Option.bind_eq_some_iff.1 h
  obtain ⟨hempty, hgiven⟩ := Source.segments_of_path? hsource
  refine ⟨fun hs => ?_, fun segment hs hdivider => ?_, fun hfull => ?_⟩
  · exact (mem_segments_of_steps hsteps hs).resolve_left hempty
  · rcases mem_segments_of_steps hsteps hs with hstart | hadded
    · exact Or.inl (hgiven segment hstart hdivider)
    · exact Or.inr hadded
  · rw [parse?_text_iff, and_iff_right hfull]

/-- A divided and an empty segment are told from the steps that add them, and what is left when they
are dropped again is read back. -/
theorem shortened_read_back : ∃ long short,
    derive? (.text "A/B") [.child "C/D", .child ""] = some long ∧
    "" ∈ long.segments ∧ .child "" ∈ [Step.child "C/D", .child ""] ∧
    "C/D" ∈ long.segments ∧
    ((∃ segments, Source.text "A/B" = .segments segments ∧ "C/D" ∈ segments) ∨
      .child "C/D" ∈ [Step.child "C/D", .child ""]) ∧
    derive? (.text "A/B") [.child "C/D", .child "", .ancestor 2] = some short ∧
    "" ∉ short.segments ∧ (∀ segment ∈ short.segments, separator ∉ segment.toList) ∧
    parse? short.text = some short ∧ short.text = "A/B" := by
  have hlong : derive? (.text "A/B") [.child "C/D", .child ""] =
      some ⟨["A", "B", "C/D", ""], by simp⟩ := by decide
  have hshort : derive? (.text "A/B") [.child "C/D", .child "", .ancestor 2] =
      some ⟨["A", "B"], by simp⟩ := by decide
  obtain ⟨hderived, htext⟩ := derived_read_back
  obtain ⟨hempty, hdivided, _⟩ := hderived _ _ _ hlong
  obtain ⟨_, _, hread⟩ := hderived _ _ _ hshort
  have hfull : "" ∉ ["A", "B"] := by decide
  have hplain : ∀ segment ∈ ["A", "B"], separator ∉ segment.toList := by decide
  exact ⟨_, _, hlong, by decide, hempty (by decide), by decide,
    hdivided "C/D" (by decide) (by decide), hshort, hfull, hplain, (hread hfull).2 hplain,
    htext _ _ (by decide)⟩

/-- A segment with a divider is read back as two, and an empty one is not read back at all. -/
theorem not_read_back :
    (∃ path, derive? (.segments ["A/B"]) [] = some path ∧ parse? path.text ≠ some path) ∧
    ∃ path, derive? (.text "A") [.child ""] = some path ∧ "" ∈ path.segments ∧
      parse? path.text ≠ some path := by
  refine ⟨⟨⟨["A/B"], by simp⟩, ?_, ?_⟩, ⟨["A", ""], by simp⟩, ?_, ?_, ?_⟩
  all_goals decide

end MutationRules.ClassPath
