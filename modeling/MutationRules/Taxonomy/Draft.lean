import MutationRules.Taxonomy.Basic

/-!
# Drafts of a taxonomy

A taxonomy is written down as a sequence of declarations. A draft collects them and remembers the
first that contradicts an earlier one; `Draft.build` completes the draft to a taxonomy or says what
is wrong with it.
-/

namespace MutationRules

/-- A statement about some operators. -/
inductive Declaration
  /-- The operators have the given operand slots. -/
  | format (operators : List Operator) (slots : Format)
  /-- The operators' class paths are the given segments followed by their tokens. -/
  | family (operators : List Operator) (parent : List String)
  /-- The operators may stand in the given places; the last such statement counts. -/
  | role (operators : List Operator) (role : Role)
  /-- The operands of the operators may be exchanged. -/
  | commutative (operators : List Operator)
  /-- Each matcher may be replaced by the replacers, but not by itself or by an excluded one. -/
  | replace (matchers replacers excluded : List Operator)
  deriving DecidableEq

/-- What has been declared so far. -/
structure Draft where
  /-- The formats. -/
  formats : OrderedMap Operator Format := ∅
  /-- The class paths. -/
  classPaths : OrderedMap Operator ClassPath := ∅
  /-- The roles. -/
  roles : OrderedMap Operator Role := ∅
  /-- Who may replace whom. -/
  replacements : ReplacementTable := ∅
  /-- The operators whose operands may be exchanged. -/
  commutative : OrderedSet Operator := ∅
  /-- The first declaration that could not be accepted. -/
  defect? : Option TaxonomyError := none
  deriving DecidableEq

namespace Draft

/-- Remember a defect, unless there is one already. -/
def report (d : Draft) (defect : TaxonomyError) : Draft :=
  { d with defect? := d.defect?.or (some defect) }

/-- Give an operator its format; a second format is a defect. -/
def declareFormat (slots : Format) (d : Draft) (op : Operator) : Draft :=
  if d.formats.contains op then d.report (.duplicateFormat op)
  else { d with formats := d.formats.insert op slots }

/-- Give an operator its class path; a second path or an empty segment is a defect. -/
def declareFamily (parent : List String) (d : Draft) (op : Operator) : Draft :=
  match ClassPath.ofSegments? (parent ++ [op.token]) with
  | none => d.report (.missingClassPath op)
  | some path =>
    match d.classPaths.get? op with
    | some first => d.report (.duplicateClassPath op first path)
    | none => { d with classPaths := d.classPaths.insert op path }

/-- Give an operator a role in place of the one it has. -/
def declareRole (role : Role) (d : Draft) (op : Operator) : Draft :=
  { d with roles := d.roles.insert op role }

/-- Let a matcher be replaced by more operators. -/
def declareReplacers (replacers excluded : List Operator) (d : Draft) (matcher : Operator) :
    Draft :=
  let added := replacers.filter fun r => r != matcher && !excluded.contains r
  { d with
    replacements := d.replacements.adjust matcher fun known? => (known?.getD ∅).insertMany added }

/-- Take one more declaration into account. -/
def declare (d : Draft) : Declaration → Draft
  | .format operators slots => operators.foldl (declareFormat slots) d
  | .family operators parent => operators.foldl (declareFamily parent) d
  | .role operators role => operators.foldl (declareRole role) d
  | .commutative operators => { d with commutative := d.commutative.insertMany operators }
  | .replace matchers replacers excluded => matchers.foldl (declareReplacers replacers excluded) d

/-- The draft of a sequence of declarations. -/
def ofDeclarations (declarations : List Declaration) : Draft := declarations.foldl declare {}

/-- The role of an operator: the last one declared, and both sides if none was. -/
def role (d : Draft) (op : Operator) : Role := (d.roles.get? op).getD .both

/-- The entry of an operator, which needs a format and a class path. -/
def entry (d : Draft) (op : Operator) :
    Except TaxonomyError { e : OperatorEntry // e.operator = op } :=
  match d.formats.get? op, d.classPaths.get? op with
  | none, _ => .error (.unknownOperator op)
  | some _, none => .error (.missingClassPath op)
  | some format, some classPath => .ok ⟨⟨op, format, d.role op, classPath⟩, rfl⟩

/-- The entries of some operators, or what the first incomplete one lacks. -/
def entries (d : Draft) : (operators : List Operator) →
    Except TaxonomyError { es : List OperatorEntry // es.map OperatorEntry.operator = operators }
  | [] => .ok ⟨[], rfl⟩
  | op :: rest => do
    let e ← d.entry op
    let es ← d.entries rest
    return ⟨e.val :: es.val, by rw [List.map_cons, e.property, es.property]⟩

/-- The first place in the table where an operator stands on a side that its role forbids. -/
def misplaced? (d : Draft) : Option TaxonomyError :=
  d.replacements.entries.findSome? fun (matcher, replacers) =>
    if d.role matcher = .replaceOnly then some (.replaceOnlyMatcher matcher)
    else replacers.toList.findSome? fun replacer =>
      if d.role replacer = .matchOnly then some (.matchOnlyReplacer matcher replacer) else none

/-- Complete the draft to a taxonomy, or name the first defect: of the declarations, then of an
operator's description, then of the table. -/
def build (d : Draft) (constants : Constants) : Except TaxonomyError Taxonomy :=
  match d.defect? with
  | some defect => .error defect
  | none => do
    let es ← d.entries Operator.all
    match d.misplaced? with
    | some defect => .error defect
    | none => return {
        entries := es.val
        complete := es.property
        replacements := d.replacements
        commutative := d.commutative
        constants }

end Draft

namespace Taxonomy

/-- The taxonomy that a sequence of declarations describes, with the literals of the settings. -/
def ofDeclarations (settings : Settings) (declarations : List Declaration) :
    Except TaxonomyError Taxonomy := do
  settings.validate
  (Draft.ofDeclarations declarations).build (.ofSettings settings)

end Taxonomy

end MutationRules
