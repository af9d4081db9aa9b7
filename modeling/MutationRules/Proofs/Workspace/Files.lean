import Mathlib.Logic.Function.Basic
import MutationRules.Workspace.Basic

/-!
# The files of a host

A lawful host changes its files only by what is done to a draft: one that is begun was not
there before, and one that takes the place of a file does so in one step or not at all.
Giving a file a new content therefore leaves nothing else behind.
-/

namespace MutationRules

/-- The place that each path names, and what is at each place. -/
structure FileTree (Place : Type) where
  /-- The place of the file that a path names, whether it exists or not. -/
  place? : String → Option Place
  /-- The bytes of the file at a place. -/
  content? : Place → Option ByteArray

namespace FileTree

variable {Place : Type} [DecidableEq Place]

/-- The files with a new content of one place, or none there. -/
def set (tree : FileTree Place) (place : Place) (content? : Option ByteArray) : FileTree Place :=
  { tree with content? := Function.update tree.content? place content? }

@[simp] theorem place?_set (tree : FileTree Place) (place : Place)
    (content? : Option ByteArray) : (tree.set place content?).place? = tree.place? := rfl

@[simp] theorem content?_set_self (tree : FileTree Place) (place : Place)
    (content? : Option ByteArray) : (tree.set place content?).content? place = content? :=
  Function.update_self ..

theorem content?_set_of_ne {tree : FileTree Place} {place other : Place}
    {content? : Option ByteArray} (h : other ≠ place) :
    (tree.set place content?).content? other = tree.content? other :=
  Function.update_of_ne h ..

/-- The last content of a place counts. -/
@[simp] theorem set_set (tree : FileTree Place) (place : Place)
    (first last : Option ByteArray) : (tree.set place first).set place last = tree.set place last :=
  congrArg (mk tree.place?) (Function.update_idem ..)

/-- Nothing changes where a place keeps its content. -/
theorem set_eq_self {tree : FileTree Place} {place : Place} {content? : Option ByteArray}
    (h : tree.content? place = content?) : tree.set place content? = tree :=
  congrArg (mk tree.place?) (Function.update_eq_self_iff.2 h.symm)

end FileTree

/-- Whether the operations of a host do to its files what they say. -/
structure Host.IsLawful {σ Place : Type} [DecidableEq Place] [Host (StateM σ)]
    (view : σ → FileTree Place) : Prop where
  /-- Reading changes no file. -/
  read : ∀ s path, view ((Host.read path : StateM σ _).run s).2 = view s
  /-- Looking at the clock changes no file. -/
  now : ∀ s, view ((Host.now : StateM σ _).run s).2 = view s
  /-- A draft is a new empty file where there was none. -/
  startDraft : ∀ s directory draft? s',
    (Host.startDraft directory : StateM σ _).run s = (draft?, s') →
      match draft? with
      | none => view s' = view s
      | some draft => ∃ place, (view s).place? draft = some place ∧
          (view s).content? place = none ∧ view s' = (view s).set place (some ∅)
  /-- Only the draft is filled, and with all of the text if that succeeds. -/
  fillDraft : ∀ s draft text place filled s', (view s).place? draft = some place →
    (Host.fillDraft draft text : StateM σ _).run s = (filled, s') →
      ∃ content?, view s' = (view s).set place content? ∧
        (filled = true → content? = some text.toUTF8)
  /-- A draft is moved with its content, or nothing changes. -/
  settleDraft : ∀ s draft path place settled s', (view s).place? draft = some place →
    (Host.settleDraft draft path : StateM σ _).run s = (settled, s') →
      match settled with
      | false => view s' = view s
      | true => ∃ target, (view s).place? path = some target ∧
          view s' = ((view s).set place none).set target ((view s).content? place)
  /-- Only the draft is taken away. -/
  dropDraft : ∀ s draft place, (view s).place? draft = some place →
    view ((Host.dropDraft draft : StateM σ _).run s).2 = (view s).set place none

/-- What is left of the files where one was to be given a new content. -/
def FileTree.Replaced {Place : Type} [DecidableEq Place] (before : FileTree Place) (path : String)
    (content : String) (after : FileTree Place) : Prop :=
  ∃ place, before.place? path = some place ∧ after = before.set place (some content.toUTF8)

/-- A sequence of two steps ends where the second ends after the first. -/
theorem run_bind_eq_iff {σ α β : Type} {first : StateM σ α} {next : α → StateM σ β} {s s' : σ}
    {b : β} : (first >>= next).run s = (b, s') ↔
      ∃ a middle, first.run s = (a, middle) ∧ (next a).run middle = (b, s') := by
  rw [StateT.run_bind]
  constructor
  · exact fun h => ⟨_, _, rfl, h⟩
  · rintro ⟨a, middle, hfirst, hnext⟩
    rw [hfirst]
    exact hnext

namespace Host.IsLawful

variable {σ Place : Type} [DecidableEq Place] [Host (StateM σ)] {view : σ → FileTree Place}

/-- A draft is moved with its new content, or is the only file that changes. -/
theorem view_completeDraft (lawful : Host.IsLawful view) {draft path content : String}
    {place : Place} {s s' : σ} {settled : Bool} (hplace : (view s).place? draft = some place)
    (h : (Host.completeDraft draft path content : StateM σ Bool).run s = (settled, s')) :
    match settled with
    | false => ∃ content?, view s' = (view s).set place content?
    | true => ((view s).set place none).Replaced path content (view s') := by
  obtain ⟨filled, middle, hfill, h⟩ := run_bind_eq_iff.1 h
  obtain ⟨content?, hfilled, hcontent⟩ := lawful.fillDraft _ _ _ _ _ _ hplace hfill
  cases filled with
  | false =>
    cases h
    exact ⟨content?, hfilled⟩
  | true =>
    have hplace' : (view middle).place? draft = some place := by
      rw [hfilled, FileTree.place?_set, hplace]
    have hmoved := lawful.settleDraft _ _ _ _ _ _ hplace' h
    cases settled with
    | false => exact ⟨content?, hmoved.trans hfilled⟩
    | true =>
      obtain ⟨target, htarget, hview⟩ := hmoved
      rw [hfilled, FileTree.place?_set] at htarget
      rw [hfilled, FileTree.content?_set_self, FileTree.set_set, hcontent rfl] at hview
      exact ⟨target, htarget, hview⟩

/-- A file is given its new content and nothing else changes, or nothing changes at all. -/
theorem view_replace (lawful : Host.IsLawful view) {path content : String} {s s' : σ}
    {settled : Bool} (h : (Host.replace path content : StateM σ Bool).run s = (settled, s')) :
    match settled with
    | false => view s' = view s
    | true => (view s).Replaced path content (view s') := by
  obtain ⟨draft?, s₁, hstart, h⟩ := run_bind_eq_iff.1 h
  have hstarted := lawful.startDraft _ _ _ _ hstart
  cases draft? with
  | none =>
    cases h
    exact hstarted
  | some draft =>
    obtain ⟨place, hplace, hfresh, hdraft⟩ := hstarted
    have hplace₁ : (view s₁).place? draft = some place := by
      rw [hdraft, FileTree.place?_set, hplace]
    obtain ⟨completed, s₂, hcomplete, h⟩ := run_bind_eq_iff.1 h
    have hcompleted := lawful.view_completeDraft hplace₁ hcomplete
    rw [hdraft] at hcompleted
    cases completed with
    | true =>
      cases h
      -- Without the draft the files are those that there were before.
      rwa [FileTree.set_set, FileTree.set_eq_self hfresh] at hcompleted
    | false =>
      obtain ⟨content?, hview⟩ := hcompleted
      obtain ⟨_, s₃, hdrop, h⟩ := run_bind_eq_iff.1 h
      cases h
      have hdropped := lawful.dropDraft s₂ draft place (by rw [hview]; exact hplace)
      rw [hdrop, hview, FileTree.set_set, FileTree.set_set] at hdropped
      exact hdropped.trans (FileTree.set_eq_self hfresh)

end Host.IsLawful

/-! ## Workspaces -/

namespace Workspace

variable {w w' : Workspace} {path source target content directory draft : String}

/-- The files of a workspace. -/
def view (w : Workspace) : FileTree (List String) := ⟨w.locate, w.files.get?⟩

theorem view_insert (w : Workspace) (place : List String) (bytes : ByteArray) :
    ({ w with files := w.files.insert place bytes } : Workspace).view =
      w.view.set place (some bytes) := by
  refine congrArg (FileTree.mk w.locate) (funext fun other => ?_)
  by_cases h : other = place
  · rw [h, OrderedMap.get?_insert_self, Function.update_self]
  · rw [OrderedMap.get?_insert_of_ne _ _ h, Function.update_of_ne h]
    rfl

theorem view_erase (w : Workspace) (place : List String) :
    ({ w with files := w.files.erase place } : Workspace).view = w.view.set place none := by
  refine congrArg (FileTree.mk w.locate) (funext fun other => ?_)
  by_cases h : other = place
  · rw [h, OrderedMap.get?_erase_self, Function.update_self]
  · rw [OrderedMap.get?_erase_of_ne _ h, Function.update_of_ne h]
    rfl

/-- What is written is at its place, and nothing else changes. -/
theorem view_write (h : w.write path content = some w') :
    w.view.Replaced path content w'.view := by
  simp only [write, Option.bind_eq_bind, Option.bind_eq_some_iff] at h
  obtain ⟨place, hplace, h⟩ := h
  split at h
  · cases h
  · cases h
    exact ⟨place, hplace, w.view_insert place _⟩

theorem view_remove {place : List String} (h : w.locate path = some place) :
    (w.remove path).view = w.view.set place none := by
  rw [remove, h]
  exact w.view_erase place

/-- A file is moved with its content. -/
theorem view_move {origin : List String} (horigin : w.locate source = some origin)
    (h : w.move source target = some w') : ∃ place, w.locate target = some place ∧
      w'.view = (w.view.set origin none).set place (w.files.get? origin) := by
  simp only [move, horigin, Option.bind_eq_bind, Option.bind_some, Option.bind_eq_some_iff] at h
  obtain ⟨bytes, hbytes, place, hplace, h⟩ := h
  split at h
  · cases h
  · cases h
    refine ⟨place, hplace, ?_⟩
    rw [hbytes, ← view_erase]
    exact view_insert { w with files := w.files.erase origin } place bytes

/-- A draft that is begun is a new empty file. -/
theorem view_start (h : w.start directory = some (draft, w')) :
    ∃ place, w.locate draft = some place ∧ w.files.get? place = none ∧
      w'.view = w.view.set place (some ∅) := by
  simp only [start, Option.bind_eq_bind, Option.bind_eq_some_iff] at h
  obtain ⟨attempt, hfound, written, hwrite, h⟩ := h
  cases h
  obtain ⟨place, hplace, hview⟩ := view_write hwrite
  have hfree := List.find?_some hfound
  simp only [isFree, show w.locate (draftPath directory attempt) = some place from hplace,
    Bool.and_eq_true, Bool.not_eq_true', OrderedMap.contains, Option.isSome_eq_false_iff,
    Option.isNone_iff_eq_none] at hfree
  exact ⟨place, hplace, hfree.1, hview⟩

/-- A workspace is what a change makes of it, or what it was. -/
theorem of_run_attempt {change : Workspace → Option Workspace} {done : Bool}
    (h : (attempt change).run w = (done, w')) :
    match done with
    | false => w' = w
    | true => change w = some w' := by
  simp only [attempt, StateT.run_bind, StateT.run_get, pure_bind] at h
  cases hchange : change w with
  | none =>
    rw [hchange] at h
    cases h
    rfl
  | some changed =>
    rw [hchange] at h
    cases h
    rfl

theorem run_startDraft : (Host.startDraft directory : StateM Workspace _).run w =
    match w.start directory with
    | some (draft, w') => (some draft, w')
    | none => (none, w) := by
  simp only [Host.startDraft, StateT.run_bind, StateT.run_get, pure_bind]
  cases w.start directory <;> rfl

/-- A workspace changes its files as its operations say. -/
theorem isLawful : Host.IsLawful view where
  read _ _ := rfl
  now _ := rfl
  startDraft w directory draft? w' h := by
    rw [run_startDraft] at h
    cases hstart : w.start directory with
    | none =>
      rw [hstart] at h
      cases h
      rfl
    | some started =>
      rw [hstart] at h
      cases h
      exact view_start hstart
  fillDraft w draft text place filled w' hplace h := by
    have hwrite := of_run_attempt (show (attempt (·.write draft text)).run w = _ from h)
    cases filled with
    | false =>
      cases hwrite
      exact ⟨w.files.get? place, (FileTree.set_eq_self rfl).symm, nofun⟩
    | true =>
      obtain ⟨written, hwritten, hview⟩ := view_write hwrite
      obtain rfl := Option.some.inj (hplace.symm.trans hwritten)
      exact ⟨_, hview, fun _ => rfl⟩
  settleDraft w draft path place settled w' hplace h := by
    have hmove := of_run_attempt (show (attempt (·.move draft path)).run w = _ from h)
    cases settled with
    | false => exact congrArg view hmove
    | true => exact view_move hplace hmove
  dropDraft w draft place hplace := view_remove hplace

end Workspace

end MutationRules
