import MutationRules.Yaml.Token

/-!
# YAML nodes

The trees that tokens write. An alias stands for the node with an anchor, which may be around it, so
it is kept as a number beside the nodes that have anchors.
-/

namespace MutationRules.Yaml

/-- A node. -/
inductive Node
  /-- A scalar, and whether it stands without quotes in a line. -/
  | scalar (plain : Bool) (text : String)
  | sequence (items : List Node)
  | mapping (entries : List (Node × Node))
  /-- The node that has the anchor with a number. -/
  | alias (number : Nat)

/-- The node that stands for one that is left out. -/
def Node.empty : Node := .scalar true ""

/-- What is known while nodes are read. -/
structure Building where
  /-- The tokens that follow. -/
  tokens : List Token
  /-- The number that each name of an anchor has now. -/
  numbers : List (String × Nat)
  /-- The nodes with anchors and their numbers, in the order in which they begin. -/
  anchored : List (Nat × Node)

/-- Reading of nodes, which may fail. -/
abbrev Build := StateT Building Option

namespace Build

/-- The next token. -/
def peek? : Build (Option Token) := return (← get).tokens.head?

/-- Move over the next token. -/
def skip : Build Unit := modify fun b => { b with tokens := b.tokens.tail }

/-- Move over the next token if it is the given one. -/
def accept (token : Token) : Build Bool := do
  let found := (← peek?) = some token
  if found then skip
  return found

/-- A node, which may be left out before some tokens. -/
def orEmpty (stops : List Token) (node : Build Node) : Build Node := do
  if (← peek?).any stops.contains then return .empty
  node

/-- The node of the anchor that has a name. -/
def alias? (name : String) : Build Node := do
  let some number := (← get).numbers.lookup name | failure
  skip
  return .alias number

/-- The name of an anchor, if one follows. -/
def anchor? : Build (Option String) := do
  let some (.anchor name) ← peek? | return none
  skip
  return some name

/-- Whether a tag follows, which must use a known handle. -/
def tagged? (handles : List (List Char)) : Build Bool := do
  let some (.tag used) ← peek? | return false
  guard (used.all handles.contains)
  skip
  return true

/-- The anchor and the tag of a node, in either order. -/
def properties? (handles : List (List Char)) : Build (Option String × Bool) := do
  match ← anchor? with
  | some name => return (some name, ← tagged? handles)
  | none =>
    if ← tagged? handles then return (← anchor?, true)
    return (none, false)

/-- A node that is known under a name from its beginning on. Its number is the number of names in
use before it; of the nodes with one number the last one to begin holds. -/
def named (name : String) (node : Build Node) : Build Node := do
  let before ← get
  let number := before.numbers.length
  set { before with
    numbers := (name, number) :: before.numbers.filter (·.1 ≠ name)
    anchored := before.anchored ++ [(number, Node.empty)] }
  let read ← node
  modify fun b => { b with anchored := b.anchored.set before.anchored.length (number, read) }
  return read

mutual

/-- The node that comes next. Block collections stand only where they are allowed, and the entries
of a sequence may follow without its opening only in a mapping. -/
def node? (handles : List (List Char)) : Nat → Bool → Bool → Build Node
  | 0, _, _ => failure
  | fuel + 1, inBlock, isValue => do
    if let some (.alias name) ← peek? then return ← alias? name
    let (name, tagged) ← properties? handles
    let body : Build Node := do
      match ← peek? with
      | some (.scalar plain text) =>
        skip
        return .scalar plain text
      | some .flowSequence =>
        skip
        return .sequence (← flowItems? handles fuel)
      | some .flowMapping =>
        skip
        return .mapping (← flowEntries? handles fuel)
      | token =>
        if isValue ∧ token = some .blockEntry then
          return .sequence (← looseItems? handles fuel)
        else if inBlock ∧ token = some .blockSequence then
          skip
          return .sequence (← blockItems? handles fuel)
        else if inBlock ∧ token = some .blockMapping then
          skip
          return .mapping (← blockEntries? handles fuel)
        else if name.isSome ∨ tagged then return .empty
        else failure
    match name with
    | some name => named name body
    | none => body

/-- The items of a block sequence up to its end. -/
def blockItems? (handles : List (List Char)) : Nat → Build (List Node)
  | 0 => failure
  | fuel + 1 => do
    if ← accept .blockEnd then return []
    guard (← accept .blockEntry)
    let item ← orEmpty [.blockEntry, .blockEnd] (node? handles fuel true false)
    return item :: (← blockItems? handles fuel)

/-- The items of a block sequence that is not indented. -/
def looseItems? (handles : List (List Char)) : Nat → Build (List Node)
  | 0 => failure
  | fuel + 1 => do
    if !(← accept .blockEntry) then return []
    let item ← orEmpty [.blockEntry, .key, .value, .blockEnd] (node? handles fuel true false)
    return item :: (← looseItems? handles fuel)

/-- The entries of a block mapping up to its end. -/
def blockEntries? (handles : List (List Char)) : Nat → Build (List (Node × Node))
  | 0 => failure
  | fuel + 1 => do
    if ← accept .blockEnd then return []
    guard (← accept .key)
    let part := orEmpty [.key, .value, .blockEnd] (node? handles fuel true true)
    let key ← part
    let value ← if ← accept .value then part else pure .empty
    return (key, value) :: (← blockEntries? handles fuel)

/-- The items of a flow sequence up to its end. A key makes an item a mapping of one entry; where it
is left out, the token after it is passed over. -/
def flowItems? (handles : List (List Char)) : Nat → Build (List Node)
  | 0 => failure
  | fuel + 1 => do
    if ← accept .flowSequenceEnd then return []
    let item ←
      if ← accept .key then do
        let key ←
          if (← peek?).any [Token.value, .flowEntry, .flowSequenceEnd].contains then do
            skip
            pure .empty
          else node? handles fuel false false
        let value ←
          if ← accept .value then
            orEmpty [.flowEntry, .flowSequenceEnd] (node? handles fuel false false)
          else pure .empty
        pure (Node.mapping [(key, value)])
      else node? handles fuel false false
    if ← accept .flowEntry then return item :: (← flowItems? handles fuel)
    guard (← accept .flowSequenceEnd)
    return [item]

/-- The entries of a flow mapping up to its end. -/
def flowEntries? (handles : List (List Char)) : Nat → Build (List (Node × Node))
  | 0 => failure
  | fuel + 1 => do
    if ← accept .flowMappingEnd then return []
    let entry ←
      if ← accept .key then do
        let key ← orEmpty [.value, .flowEntry, .flowMappingEnd] (node? handles fuel false false)
        let value ←
          if ← accept .value then
            orEmpty [.flowEntry, .flowMappingEnd] (node? handles fuel false false)
          else pure .empty
        pure (key, value)
      else do
        let key ← node? handles fuel false false
        pure (key, .empty)
    if ← accept .flowEntry then return entry :: (← flowEntries? handles fuel)
    guard (← accept .flowMappingEnd)
    return [entry]

end

end Build

end MutationRules.Yaml
