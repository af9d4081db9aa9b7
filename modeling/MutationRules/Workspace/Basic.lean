import MutationRules.Ordered.Map

/-!
# Workspaces

Commands read and replace whole files. `Host` says what they need for this; a `Workspace` is a
finite tree of files that provides it as plain state.
-/

namespace MutationRules

/-- Access to files by path, and to a clock. A file is given a new content by way of a draft, which
is a fresh file until it takes the place of the other. -/
class Host (m : Type → Type) where
  /-- The bytes of a file, unless it cannot be read. -/
  read : String → m (Option ByteArray)
  /-- Begin a draft in a directory; its path, unless none can be made. -/
  startDraft : String → m (Option String)
  /-- Fill a draft with a text; whether all of it was written. -/
  fillDraft : String → String → m Bool
  /-- Move a draft to a path in one step, or leave everything as it is; whether it was moved. -/
  settleDraft : String → String → m Bool
  /-- Take a draft away. -/
  dropDraft : String → m Unit
  /-- The nanoseconds since some moment. -/
  now : m Nat

namespace Path

/-- Divides the steps of a path. -/
def divider : Char := '/'

/-- What stands between the dividers of a path. -/
def pieces (path : String) : List String := (path.toList.splitOn divider).map String.ofList

/-- Whether a path begins at the root. -/
def isAbsolute (path : String) : Bool := path.toList.head? = some divider

/-- Whether a piece of a path stays where it is. -/
def isIdle (piece : String) : Bool := piece = "" || piece = "."

/-- The directory of what a path names: the path before its last step, which may be the current
directory or the root. -/
def directory (path : String) : String :=
  match (pieces path).reverse.dropWhile isIdle with
  | [] => "."
  | _ :: before =>
    match before.dropWhile isIdle with
    | [] => if isAbsolute path then divider.toString else "."
    | steps => divider.toString.intercalate steps.reverse

end Path

namespace Host

variable {m : Type → Type} [Monad m] [Host m]

/-- Fill a draft and move it to a path; whether it was moved. -/
def completeDraft (draft path content : String) : m Bool := do
  if ← fillDraft draft content then settleDraft draft path else return false

/-- Give a file a new content by way of a draft, which is dropped if it does not take the place of
the file; whether it did. -/
def replace (path content : String) : m Bool := do
  match ← startDraft (Path.directory path) with
  | none => return false
  | some draft =>
    if ← completeDraft draft path content then return true
    else
      dropDraft draft
      return false

end Host

/-- The files below a directory, each by the names on the way to it. -/
structure Workspace where
  /-- The directories other than the top one. -/
  directories : OrderedSet (List String) := ∅
  /-- The contents of the files. -/
  files : OrderedMap (List String) ByteArray := ∅

namespace Workspace

/-- The longest name in bytes. -/
def nameLimit : Nat := 255

/-- Whether a file may have a name. -/
def isName (name : String) : Bool :=
  name != "" && name != "." && name != ".." && name.utf8ByteSize ≤ nameLimit &&
    !name.toList.contains '\x00'

/-- The longest path in bytes. -/
def pathLimit : Nat := 4095

/-- The file that is always empty. -/
def nullDevice : String := "/dev/null"

/-- Go from a directory to the one that a path component names, if there is one. The directories
above the top one are written by the steps up to them, and nothing is known below those. -/
def enter (w : Workspace) (directory : List String) (component : String) : Option (List String) :=
  if Path.isIdle component then some directory
  else if component = ".." then
    some (if directory.all (· = "..") then directory ++ [component] else directory.dropLast)
  else if directory ++ [component] ∈ w.directories then some (directory ++ [component])
  else none

/-- The place of the file that a path names, whether it exists or not: the directories on the way
must exist. -/
def locate (w : Workspace) (path : String) : Option (List String) :=
  let components := Path.pieces path
  match components.getLast?, Path.isAbsolute path || pathLimit < path.utf8ByteSize with
  | some name, false =>
    if isName name then (components.dropLast.foldlM w.enter []).map (· ++ [name]) else none
  | _, _ => none

/-- The bytes of a file. -/
def read (w : Workspace) (path : String) : Option ByteArray :=
  match w.locate path with
  | some place => w.files.get? place
  | none => if path = nullDevice then some ∅ else none

/-- The workspace with a new content of a file, unless the path names a directory or no place. -/
def write (w : Workspace) (path content : String) : Option Workspace := do
  let place ← w.locate path
  if place ∈ w.directories then none
  else some { w with files := w.files.insert place content.toUTF8 }

/-- The workspace without a file. -/
def remove (w : Workspace) (path : String) : Workspace :=
  match w.locate path with
  | some place => { w with files := w.files.erase place }
  | none => w

/-- The workspace with a file moved to another path, unless that names a directory or no place. -/
def move (w : Workspace) (source target : String) : Option Workspace := do
  let origin ← w.locate source
  let bytes ← w.files.get? origin
  let place ← w.locate target
  if place ∈ w.directories then none
  else some { w with files := (w.files.erase origin).insert place bytes }

/-- Whether a path names a place where nothing is. -/
def isFree (w : Workspace) (path : String) : Bool :=
  match w.locate path with
  | some place => !w.files.contains place && place ∉ w.directories
  | none => false

/-- The number of names that are tried for a draft. -/
def draftAttempts : Nat := 65536

/-- The path of a draft in a directory. -/
def draftPath (directory : String) (attempt : Nat) : String :=
  directory ++ "/.tmp" ++ attempt.repr

/-- The first free path of a draft in a directory, and the workspace with the empty draft. -/
def start (w : Workspace) (directory : String) : Option (String × Workspace) := do
  let attempt ← (List.range' 0 draftAttempts).find? fun n => w.isFree (draftPath directory n)
  let draft := draftPath directory attempt
  return (draft, ← w.write draft "")

/-- Change the workspace if it can be changed; whether it was. -/
def attempt (change : Workspace → Option Workspace) : StateM Workspace Bool := do
  match change (← get) with
  | some w => set w; return true
  | none => return false

/-- A workspace is a host: reading leaves it alone, and no time passes. -/
instance : Host (StateM Workspace) where
  read path := do return (← get).read path
  startDraft directory := do
    match (← get).start directory with
    | some (draft, w) => set w; return some draft
    | none => return none
  fillDraft draft content := attempt (·.write draft content)
  settleDraft draft path := attempt (·.move draft path)
  dropDraft draft := modify (·.remove draft)
  now := return 0

end Workspace

end MutationRules
