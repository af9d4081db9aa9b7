import MutationRules.Yaml.Node

/-!
# YAML documents

A text with at most one document. A document that is left out is an empty plain scalar.
-/

namespace MutationRules.Yaml

/-- A document. -/
structure Document where
  /-- Its outermost node. -/
  root : Node
  /-- The nodes with anchors and their numbers, in the order in which they begin. -/
  anchored : List (Nat × Node)

namespace Document

/-- The directives before a document, and what follows them. -/
def directives : List Token → List Directive × List Token
  | .directive directive :: tokens =>
    let (others, rest) := directives tokens
    (directive :: others, rest)
  | tokens => ([], tokens)

/-- The handle to which a directive gives a meaning. -/
def handle? : Directive → Option (List Char)
  | .handle handle => some handle
  | .version _ _ => none

/-- The version that a directive gives. -/
def version? : Directive → Option (Nat × Nat)
  | .version major minor => some (major, minor)
  | .handle _ => none

/-- Whether a document may have some directives: each handle has one meaning, and the version is
given at most once and is known. -/
def isAdmissible (directives : List Directive) : Bool :=
  let versions := directives.filterMap version?
  versions.length ≤ 1 && versions.all [(1, 1), (1, 2)].contains &&
    decide (directives.filterMap handle?).Nodup

/-- The handles that tags may use after some directives. -/
def handles (directives : List Directive) : List (List Char) :=
  ['!'] :: ['!', '!'] :: directives.filterMap handle?

/-- The document that some tokens write. -/
def ofTokens? (tokens : List Token) : Option Document := do
  if tokens = [] then return ⟨.empty, []⟩
  let (directives, rest) := directives tokens
  let isExplicit := rest.head? = some .documentStart
  guard (isAdmissible directives ∧ (isExplicit ∨ directives = []))
  let node := Build.node? (handles directives) (2 * tokens.length + 2) true false
  let content := if isExplicit then rest.tail else rest
  let isLeftOut : Bool := isExplicit && match content.head? with
    | none | some .documentStart | some .documentEnd | some (.directive _) => true
    | some _ => false
  let start : Building := ⟨content, [], []⟩
  let (root, built) ← if isLeftOut then some (.empty, start) else node.run start
  guard (built.tokens.all (· = .documentEnd))
  return ⟨root, built.anchored⟩

/-- The document that a text writes. -/
def ofString? (text : String) : Option Document :=
  (Token.ofChars? text.toList).bind ofTokens?

/-- The node that a node stands for. -/
def resolve (document : Document) : Node → Node
  | .alias number =>
    (document.anchored.reverse.lookup number).getD .empty
  | node => node

/-- The text of a scalar. -/
def text? (document : Document) (node : Node) : Option String :=
  match document.resolve node with
  | .scalar _ text => some text
  | _ => none

/-- The items of a sequence, which has none when it is left out. -/
def items? (document : Document) (node : Node) : Option (List Node) :=
  match document.resolve node with
  | .sequence items => some items
  | .scalar plain text => if plain ∧ text = "" then some [] else none
  | _ => none

/-- The entries of a mapping, which has none when it is left out. -/
def entries? (document : Document) (node : Node) : Option (List (Node × Node)) :=
  match document.resolve node with
  | .mapping entries => some entries
  | .scalar plain text => if plain ∧ text = "" then some [] else none
  | _ => none

end Document

end MutationRules.Yaml
