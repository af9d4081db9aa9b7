import Mathlib.Logic.Relation
import MutationRules.Proofs.ClassPath
import MutationRules.Proofs.Taxonomy.Standard

/-!
# Finer and coarser classes

Each granularity is one step finer than another: it adds the spelling of the name, the mark
for exchanged operands, the last segment of both paths or the one before. What a step adds
can be taken away again, so names of one class stay together in every coarser one, and a
coarser path is a start of the finer one.
-/

namespace MutationRules

namespace Granularity

/-- One granularity is the next finer one to another. -/
inductive Step : Granularity → Granularity → Prop
  /-- The spelling of the name is dropped. -/
  | spelling : Step exact operatorSwap
  /-- The mark for exchanged operands is dropped. -/
  | mark : Step operatorSwap operator
  /-- The last segments are dropped. -/
  | leaf : Step operator family
  /-- The segments before are dropped. -/
  | parent : Step family category

theorem level_injective : level.Injective := by
  intro a b h
  exact Except.ok.inj ((ofLevel_level a).symm.trans (h ▸ ofLevel_level b))

theorem exists_step {fine : Granularity} (h : 1 < fine.level) :
    ∃ next, Step fine next ∧ next.level + 1 = fine.level := by
  cases fine with
  | allAncestors | category => exact absurd h (by decide)
  | family => exact ⟨_, .parent, rfl⟩
  | operator => exact ⟨_, .leaf, rfl⟩
  | operatorSwap => exact ⟨_, .mark, rfl⟩
  | exact => exact ⟨_, .spelling, rfl⟩

/-- A coarser granularity is reached by steps. -/
theorem transGen_step {fine coarse : Granularity} (hpos : 1 ≤ coarse.level)
    (h : coarse.level < fine.level) : Relation.TransGen Step fine coarse := by
  obtain ⟨next, hstep, hnext⟩ := exists_step (Int.lt_of_le_of_lt hpos h)
  by_cases he : next = coarse
  · exact .single (he ▸ hstep)
  · have hne : next.level ≠ coarse.level := fun hl => he (level_injective hl)
    exact .head hstep (transGen_step hpos (by omega))
termination_by fine.level.toNat
decreasing_by omega

end Granularity

/-- Whether a rule name can be read. -/
def RuleName.Decodes (name : String) : Prop := ∃ decoded, decode name = .ok decoded

namespace Taxonomy

open Granularity (Step)

variable {settings : Settings} {declarations : List Declaration} {t : Taxonomy}
  {name name' : String} {decoded decoded' : RuleName} {fine coarse : Granularity}

/-! ## Names with a class -/

theorem exists_classesOf_eq_cons (t : Taxonomy) (name : String) (decoded : RuleName)
    (g : Granularity) : ∃ first rest, t.classesOf name decoded g = first :: rest := by
  cases g with
  | allAncestors =>
    obtain ⟨m, ms, hm⟩ := (t.classPath decoded.matched.operator).exists_ancestors_eq_cons
    obtain ⟨r, rs, hr⟩ := (t.classPath decoded.replacement.operator).exists_ancestors_eq_cons
    simp [classesOf, hm, hr]
  | category | family | operator | operatorSwap | exact => exact ⟨_, _, rfl⟩

/-- A decoded name has a class. -/
theorem exists_classOf (hname : RuleName.decode name = .ok decoded) (g : Granularity) :
    ∃ label, t.classOf name g = .ok label := by
  obtain ⟨first, rest, hclasses⟩ := t.exists_classesOf_eq_cons name decoded g
  exact ⟨first, by simp [classOf, classify, hname, hclasses, bind, Except.bind, pure, Except.pure]⟩

/-- The only reason to refuse a name a class is that it cannot be decoded. -/
theorem classOf_eq_error_iff {g : Granularity} {e : DecodeError} :
    t.classOf name g = .error e ↔ RuleName.decode name = .error e := by
  cases hname : RuleName.decode name with
  | error e' => simp [classOf, classify, hname, bind, Except.bind]
  | ok decoded =>
    obtain ⟨label, hlabel⟩ := exists_classOf (t := t) hname g
    simp [hlabel]

theorem exists_classOf_iff {g : Granularity} :
    (∃ label, t.classOf name g = .ok label) ↔ RuleName.Decodes name := by
  constructor
  · rintro ⟨label, hlabel⟩
    cases hname : RuleName.decode name with
    | error e => rw [classOf_eq_error_iff.2 hname] at hlabel; cases hlabel
    | ok decoded => exact ⟨decoded, hname⟩
  · rintro ⟨decoded, hname⟩
    exact exists_classOf hname g

/-! ## Paths of a class -/

/-- The two paths of a class, at a granularity that keeps paths. -/
def pathsOf? (t : Taxonomy) (decoded : RuleName) : Granularity → Option (ClassPath × ClassPath) :=
  let matched := t.classPath decoded.matched.operator
  let replacement := t.classPath decoded.replacement.operator
  fun
  | .operatorSwap => some
    (matched, if decoded.isSwapped then replacement.child ClassPath.swapMarker else replacement)
  | .operator => some (matched, replacement)
  | .family => some (matched.truncated 1, replacement.truncated 1)
  | .category => some (matched.truncated 2, replacement.truncated 2)
  | .exact | .allAncestors => none

/-- The class of a name is the text of its two paths. -/
theorem classOf_of_pathsOf? (hname : RuleName.decode name = .ok decoded) {g : Granularity}
    {paths : ClassPath × ClassPath} (hpaths : t.pathsOf? decoded g = some paths) :
    t.classOf name g = .ok (paths.1.pairText paths.2) := by
  have hclasses : t.classesOf name decoded g = [paths.1.pairText paths.2] := by
    cases g with
    | exact | allAncestors => simp [pathsOf?] at hpaths
    | operatorSwap | operator | family | category =>
      obtain rfl := Option.some.inj hpaths
      rfl
  simp [classOf, classify, hname, hclasses, bind, Except.bind, pure, Except.pure]

theorem classOf_exact (hname : RuleName.decode name = .ok decoded) :
    t.classOf name .exact = .ok name := by
  simp [classOf, classify, classesOf, hname, bind, Except.bind, pure, Except.pure]

/-- The finest class of a name is its spelling, the others have paths. -/
theorem eq_exact_or_exists_pathsOf? (hpos : 1 ≤ fine.level) :
    fine = .exact ∨ ∀ decoded, ∃ paths, t.pathsOf? decoded fine = some paths := by
  cases fine with
  | allAncestors => exact absurd hpos (by decide)
  | exact => exact Or.inl rfl
  | operatorSwap | operator | family | category => exact Or.inr fun decoded => ⟨_, rfl⟩

/-! ## Class paths that are read back -/

/-- The class path of an operator ends in its token. -/
theorem leaf_classPath (ht : ofDeclarations settings declarations = .ok t) (op : Operator) :
    (t.classPath op).leaf = op.token := by
  obtain ⟨_, parent, _, _, _, hsegments⟩ := exists_classPath_of_built ht op
  simp [ClassPath.leaf, hsegments]

/-- Whether no segment of a class has a character that divides segments or sides. -/
def HasPlainClasses (t : Taxonomy) : Prop :=
  ∀ op, ∀ segment ∈ (t.classPath op).segments,
    ClassPath.separator ∉ segment.toList ∧ RuleName.sideSeparator ∉ segment.toList

/-- Classes without dividers are read back. -/
theorem HasPlainClasses.isReadable (h : t.HasPlainClasses)
    (ht : ofDeclarations settings declarations = .ok t) (op : Operator) :
    (t.classPath op).IsReadable := by
  obtain ⟨_, parent, _, _, hempty, hsegments⟩ := exists_classPath_of_built ht op
  intro segment hs
  refine ⟨?_, h op segment hs⟩
  rintro rfl
  rw [hsegments, List.mem_append, List.mem_singleton] at hs
  exact hs.elim hempty fun htoken => (ClassPath.isSegment_token op).1 htoken.symm

/-- Standard classes have no dividers. -/
theorem hasPlainClasses_standard (ht : standard settings = .ok t) : t.HasPlainClasses := by
  have hall : ∀ said ∈ Declaration.Topic.family.statements Standard.classes, ∀ segment ∈ said.2,
      ClassPath.IsSegment segment := by decide +kernel
  intro op segment hs
  obtain ⟨_, parent, hdeclared, _, _, hsegments⟩ := exists_classPath_of_built ht op
  rw [hsegments, List.mem_append, List.mem_singleton] at hs
  rcases hs with hs | rfl
  · exact (hall _ ((Standard.mem_declarations_iff .family rfl (_, _)).1 hdeclared) segment hs).2
  · exact (ClassPath.isSegment_token op).2

/-- The paths of a class are read back at every granularity. -/
theorem HasPlainClasses.isReadable_of_pathsOf? (h : t.HasPlainClasses)
    (ht : ofDeclarations settings declarations = .ok t) {g : Granularity}
    {paths : ClassPath × ClassPath} (hpaths : t.pathsOf? decoded g = some paths) :
    paths.1.IsReadable ∧ paths.2.IsReadable := by
  have hm := h.isReadable ht decoded.matched.operator
  have hr := h.isReadable ht decoded.replacement.operator
  cases g with
  | exact | allAncestors => simp [pathsOf?] at hpaths
  | operatorSwap =>
    obtain rfl := Option.some.inj hpaths
    by_cases hswapped : decoded.isSwapped = true
    · simpa [hswapped] using And.intro hm (hr.child ClassPath.isSegment_swapMarker)
    · simpa [hswapped] using And.intro hm hr
  | operator =>
    obtain rfl := Option.some.inj hpaths
    exact ⟨hm, hr⟩
  | family | category =>
    obtain rfl := Option.some.inj hpaths
    exact ⟨hm.truncated _, hr.truncated _⟩

/-- Names of one class have the same paths. -/
theorem HasPlainClasses.paths_eq_of_classOf_eq (h : t.HasPlainClasses)
    (ht : ofDeclarations settings declarations = .ok t)
    (hname : RuleName.decode name = .ok decoded) (hname' : RuleName.decode name' = .ok decoded')
    {g : Granularity} {paths paths' : ClassPath × ClassPath}
    (hpaths : t.pathsOf? decoded g = some paths) (hpaths' : t.pathsOf? decoded' g = some paths')
    (hsame : t.classOf name g = t.classOf name' g) : paths = paths' := by
  rw [classOf_of_pathsOf? hname hpaths, classOf_of_pathsOf? hname' hpaths'] at hsame
  obtain ⟨hm, hr⟩ := h.isReadable_of_pathsOf? ht hpaths
  obtain ⟨hm', hr'⟩ := h.isReadable_of_pathsOf? ht hpaths'
  have heq := ClassPath.eq_of_pairText_eq hm hr hm' hr' (Except.ok.inj hsame)
  exact Prod.ext heq.1 heq.2

/-! ## One step -/

/-- What a step drops stands at the end of the paths. -/
theorem startsWith_of_step (hstep : Step fine coarse) {paths : ClassPath × ClassPath}
    (hpaths : t.pathsOf? decoded fine = some paths) :
    ∃ starts, t.pathsOf? decoded coarse = some starts ∧
      paths.1.startsWith starts.1 = true ∧ paths.2.startsWith starts.2 = true := by
  cases hstep with
  | spelling => simp [pathsOf?] at hpaths
  | mark =>
    obtain rfl := Option.some.inj hpaths
    refine ⟨_, rfl, ClassPath.startsWith_self _, ?_⟩
    by_cases hswapped : decoded.isSwapped = true
    · simpa [hswapped] using ClassPath.startsWith_child _ _
    · simpa [hswapped] using ClassPath.startsWith_self _
  | leaf =>
    obtain rfl := Option.some.inj hpaths
    exact ⟨_, rfl, ClassPath.startsWith_truncated _ _, ClassPath.startsWith_truncated _ _⟩
  | parent =>
    obtain rfl := Option.some.inj hpaths
    refine ⟨_, rfl, ?_⟩
    rw [← ClassPath.truncated_truncated _ 1 1, ← ClassPath.truncated_truncated _ 1 1]
    exact ⟨ClassPath.startsWith_truncated _ _, ClassPath.startsWith_truncated _ _⟩

/-- A mark is told from the leaf of a class path, which is a token. -/
theorem child_swapMarker_ne (ht : ofDeclarations settings declarations = .ok t)
    (path : ClassPath) (op : Operator) : path.child ClassPath.swapMarker ≠ t.classPath op := by
  intro h
  apply ClassPath.swapMarker_ne_token op
  calc ClassPath.swapMarker
      = (path.child ClassPath.swapMarker).leaf := (ClassPath.leaf_child _ _).symm
    _ = (t.classPath op).leaf := congrArg ClassPath.leaf h
    _ = op.token := leaf_classPath ht op

/-- Names with the same paths have the same paths one step further. -/
theorem pathsOf?_eq_of_step (ht : ofDeclarations settings declarations = .ok t)
    (hstep : Step fine coarse) {paths : ClassPath × ClassPath}
    (hpaths : t.pathsOf? decoded fine = some paths)
    (hpaths' : t.pathsOf? decoded' fine = some paths) :
    t.pathsOf? decoded coarse = t.pathsOf? decoded' coarse := by
  have hsame : t.pathsOf? decoded fine = t.pathsOf? decoded' fine := hpaths.trans hpaths'.symm
  cases hstep with
  | spelling => simp [pathsOf?] at hpaths
  | mark =>
    obtain ⟨hm, hr⟩ := Prod.mk.inj (Option.some.inj hsame)
    have hreplacement : t.classPath decoded.replacement.operator =
        t.classPath decoded'.replacement.operator := by
      by_cases hs : decoded.isSwapped = true <;> by_cases hs' : decoded'.isSwapped = true
      · rw [if_pos hs, if_pos hs'] at hr
        exact ClassPath.child_injective _ hr
      · rw [if_pos hs, if_neg hs'] at hr
        exact absurd hr (child_swapMarker_ne ht _ _)
      · rw [if_neg hs, if_pos hs'] at hr
        exact absurd hr.symm (child_swapMarker_ne ht _ _)
      · rwa [if_neg hs, if_neg hs'] at hr
    exact congrArg some (Prod.ext hm hreplacement)
  | leaf =>
    obtain ⟨hm, hr⟩ := Prod.mk.inj (Option.some.inj hsame)
    simp only [pathsOf?, hm, hr]
  | parent =>
    obtain ⟨hm, hr⟩ := Prod.mk.inj (Option.some.inj hsame)
    simp only [pathsOf?, ← ClassPath.truncated_truncated _ 1 1, hm, hr]

/-- Names of one class have one class one step further. -/
theorem HasPlainClasses.classOf_eq_of_step (h : t.HasPlainClasses)
    (ht : ofDeclarations settings declarations = .ok t) (hstep : Step fine coarse)
    (hname : RuleName.decode name = .ok decoded) (hname' : RuleName.decode name' = .ok decoded')
    (hsame : t.classOf name fine = t.classOf name' fine) :
    t.classOf name coarse = t.classOf name' coarse := by
  have hpos : 1 ≤ fine.level := by cases hstep <;> decide
  rcases eq_exact_or_exists_pathsOf? hpos with rfl | hpaths
  · rw [classOf_exact hname, classOf_exact hname'] at hsame
    rw [Except.ok.inj hsame]
  · obtain ⟨paths, hp⟩ := hpaths decoded
    obtain ⟨paths', hp'⟩ := hpaths decoded'
    obtain rfl := h.paths_eq_of_classOf_eq ht hname hname' hp hp' hsame
    obtain ⟨starts, hstarts, _⟩ := startsWith_of_step hstep hp
    have hstarts' := (pathsOf?_eq_of_step ht hstep hp hp').symm.trans hstarts
    rw [classOf_of_pathsOf? hname hstarts, classOf_of_pathsOf? hname' hstarts']

/-! ## Any number of steps -/

/-- What steps drop stands at the end of the paths. -/
theorem startsWith_of_transGen (hsteps : Relation.TransGen Step fine coarse)
    {paths : ClassPath × ClassPath} (hpaths : t.pathsOf? decoded fine = some paths) :
    ∃ starts, t.pathsOf? decoded coarse = some starts ∧
      paths.1.startsWith starts.1 = true ∧ paths.2.startsWith starts.2 = true := by
  induction hsteps with
  | single hstep => exact startsWith_of_step hstep hpaths
  | tail _ hstep ih =>
    obtain ⟨between, hbetween, hm, hr⟩ := ih
    obtain ⟨starts, hstarts, hm', hr'⟩ := startsWith_of_step hstep hbetween
    exact ⟨starts, hstarts, ClassPath.startsWith_trans hm' hm, ClassPath.startsWith_trans hr' hr⟩

/-- Names of one class have one class at every coarser granularity. -/
theorem HasPlainClasses.classOf_eq_of_transGen (h : t.HasPlainClasses)
    (ht : ofDeclarations settings declarations = .ok t)
    (hsteps : Relation.TransGen Step fine coarse)
    (hname : RuleName.decode name = .ok decoded) (hname' : RuleName.decode name' = .ok decoded')
    (hsame : t.classOf name fine = t.classOf name' fine) :
    t.classOf name coarse = t.classOf name' coarse := by
  induction hsteps with
  | single hstep => exact h.classOf_eq_of_step ht hstep hname hname' hsame
  | tail _ hstep ih => exact h.classOf_eq_of_step ht hstep hname hname' ih

/-- Each granularity refines the coarser ones, if no segment of a class has a divider: names of one
class are of one class there, and the two paths that are read from the coarser class of a name are
starts of those that are read from the finer one. -/
theorem classes_refine (ht : ofDeclarations settings declarations = .ok t)
    (hplain : t.HasPlainClasses) (hpos : 1 ≤ coarse.level) (hlevel : coarse.level < fine.level) :
    (∀ name name' decoded decoded', RuleName.decode name = .ok decoded →
      RuleName.decode name' = .ok decoded' → t.classOf name fine = t.classOf name' fine →
        ∃ label, t.classOf name coarse = .ok label ∧ t.classOf name' coarse = .ok label) ∧
    (fine.level ≤ 4 → ∀ name decoded, RuleName.decode name = .ok decoded →
      ∃ label label' starts paths,
        t.classOf name coarse = .ok label ∧ ClassPath.parsePair? label = some starts ∧
        t.classOf name fine = .ok label' ∧ ClassPath.parsePair? label' = some paths ∧
        paths.1.startsWith starts.1 = true ∧ paths.2.startsWith starts.2 = true) := by
  have hsteps := Granularity.transGen_step hpos hlevel
  constructor
  · intro name name' decoded decoded' hname hname' hsame
    obtain ⟨label, hlabel⟩ := exists_classOf (t := t) hname coarse
    have hcoarse := hplain.classOf_eq_of_transGen ht hsteps hname hname' hsame
    exact ⟨label, hlabel, hcoarse.symm.trans hlabel⟩
  · intro hfine name decoded hname
    have hne : fine ≠ .exact := by
      rintro rfl
      exact absurd hfine (by decide)
    obtain ⟨paths, hp⟩ :=
      (eq_exact_or_exists_pathsOf? (t := t) (by omega : 1 ≤ fine.level)).resolve_left hne decoded
    obtain ⟨starts, hs, hm, hr⟩ := startsWith_of_transGen hsteps hp
    obtain ⟨hpm, hpr⟩ := hplain.isReadable_of_pathsOf? ht hp
    obtain ⟨hsm, hsr⟩ := hplain.isReadable_of_pathsOf? ht hs
    exact ⟨_, _, starts, paths, classOf_of_pathsOf? hname hs, ClassPath.parsePair?_pairText hsm hsr,
      classOf_of_pathsOf? hname hp, ClassPath.parsePair?_pairText hpm hpr, hm, hr⟩

/-- By default two exchanged subtractions with operands of different kinds are of one marked class,
and of one class without the mark, whose paths are starts of the marked ones. -/
theorem exchangedSubtractions_refine : ∃ t, standard {} = .ok t ∧ t.HasPlainClasses ∧
    t.classOf "ADD$@1$@2$!SUB$@2$@1$" .operatorSwap =
      t.classOf "ADD$V1$C2$!SUB$C2$V1$" .operatorSwap ∧
    (∃ label, t.classOf "ADD$@1$@2$!SUB$@2$@1$" .operator = .ok label ∧
      t.classOf "ADD$V1$C2$!SUB$C2$V1$" .operator = .ok label) ∧
    ∃ label label' starts paths,
      t.classOf "ADD$@1$@2$!SUB$@2$@1$" .operator = .ok label ∧
      ClassPath.parsePair? label = some starts ∧
      t.classOf "ADD$@1$@2$!SUB$@2$@1$" .operatorSwap = .ok label' ∧
      ClassPath.parsePair? label' = some paths ∧
      paths.1.startsWith starts.1 = true ∧ paths.2.startsWith starts.2 = true := by
  obtain ⟨t, ht⟩ := Standard.exists_standard Settings.validate_default
  have hname : RuleName.decode "ADD$@1$@2$!SUB$@2$@1$" =
      .ok ⟨⟨.add, ["@1", "@2"]⟩, ⟨.sub, ["@2", "@1"]⟩⟩ := rfl
  have hname' : RuleName.decode "ADD$V1$C2$!SUB$C2$V1$" =
      .ok ⟨⟨.add, ["V1", "C2"]⟩, ⟨.sub, ["C2", "V1"]⟩⟩ := rfl
  have hsame : t.classOf "ADD$@1$@2$!SUB$@2$@1$" .operatorSwap =
      t.classOf "ADD$V1$C2$!SUB$C2$V1$" .operatorSwap :=
    (classOf_of_pathsOf? hname rfl).trans (classOf_of_pathsOf? hname' rfl).symm
  have hplain := hasPlainClasses_standard ht
  have hlevel : Granularity.operator.level < Granularity.operatorSwap.level := by decide
  obtain ⟨hclass, hpaths⟩ := classes_refine ht hplain (by decide) hlevel
  exact ⟨t, ht, hplain, hsame, hclass _ _ _ _ hname hname' hsame, hpaths (by decide) _ _ hname⟩

end Taxonomy

end MutationRules
