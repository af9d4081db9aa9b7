import MutationRules.Classification.Classes
import MutationRules.Json.Reader

/-!
# Mutant descriptors

A descriptor maps mutants to records that name the rule behind each. A file of duplicates lists, for
some mutants, others that are found equal to them and are left out of a classification.
-/

namespace MutationRules

/-- What a descriptor says about one mutant. -/
structure MutantRecord where
  /-- The name of the rule that made the mutant. -/
  ruleName : String
  /-- The function that holds the mutant. -/
  function? : Option String
  /-- The place in the source text. -/
  location? : Option String
  /-- All else that is recorded, in normal form. -/
  extra : OrderedMap String Json.Value

namespace MutantRecord

/-- The keys of the fields that have a meaning of their own. -/
def ruleKey : String := "Type"

/-- The key of the function. -/
def functionKey : String := "FuncName"

/-- The key of the location. -/
def locationKey : String := "SrcLoc"

/-- Whether a key has a meaning of its own. -/
def isNamedKey (key : String) : Bool := [ruleKey, functionKey, locationKey].contains key

/-- The values given for a key. -/
def valuesOf (key : String) (members : List (String × Json.Value)) : List Json.Value :=
  (members.filter fun m => m.1 = key).map Prod.snd

/-- A text that may be missing or null, but may not be given twice. -/
def optionalText? : List Json.Value → Option (Option String)
  | [] | [.null] => some none
  | [.string text] => some (some text)
  | _ => none

/-- Read a record: the rule name once, function and location at most once, and other fields, of
which the last counts if a key is repeated. -/
def ofValue? (value : Json.Value) : Option MutantRecord := do
  let members ← value.members?
  match valuesOf ruleKey members with
  | [.string ruleName] =>
    let function? ← optionalText? (valuesOf functionKey members)
    let location? ← optionalText? (valuesOf locationKey members)
    let others := members.filter fun m => !isNamedKey m.1
    return {
      ruleName, function?, location?
      extra := .ofList (others.map fun m => (m.1, m.2.normalized)) }
  | _ => none

/-- The record as it is written. -/
def toValue (record : MutantRecord) : Json.Value :=
  .object <|
    (ruleKey, .string record.ruleName) ::
      (record.function?.map fun text => (functionKey, Json.Value.string text)).toList ++
      (record.location?.map fun text => (locationKey, Json.Value.string text)).toList ++
      record.extra.entries

end MutantRecord

/-- The records of mutants by id. -/
abbrev Descriptor := OrderedMap String MutantRecord

/-- The ids of the duplicates of some mutants. -/
abbrev Duplicates := OrderedMap String (List String)

namespace Descriptor

/-- Read a map, of which every value must be readable; the last value of a key counts. -/
def mapOf? {β : Type} (read? : Json.Value → Option β) (value : Json.Value) :
    Option (OrderedMap String β) := do
  let members ← value.members?
  return .ofList (← members.mapM fun m => (read? m.2).map (m.1, ·))

/-- Read a descriptor. -/
def parse? (text : String) : Option Descriptor := do
  mapOf? MutantRecord.ofValue? (← Json.Value.parse? text)

/-- The descriptor as it is written. -/
def toValue (descriptor : Descriptor) : Json.Value :=
  .object (descriptor.mapValues MutantRecord.toValue).entries

/-- The mutants that are nobody's duplicates, in order. -/
def candidates (descriptor : Descriptor) (duplicates : Duplicates) : List String :=
  let dropped := OrderedSet.ofList duplicates.values.flatten
  descriptor.keys.filter fun id => !decide (id ∈ dropped)

end Descriptor

namespace Duplicates

/-- Read a file of duplicates. -/
def parse? (text : String) : Option Duplicates := do
  Descriptor.mapOf? Json.Value.strings? (← Json.Value.parse? text)

end Duplicates

/-- The class of a mutant. -/
structure MutantClass where
  /-- The mutant. -/
  id : String
  /-- The name of its rule. -/
  rule : String
  /-- The class of the rule. -/
  label : String
  deriving DecidableEq, Repr

namespace MutantClass

/-- The class as it is written. -/
def toValue (c : MutantClass) : Json.Value :=
  .object [("id", .string c.id), ("rule", .string c.rule), ("class", .string c.label)]

/-- The number of mutants of each class. -/
def histogram (classes : List MutantClass) : OrderedMap String Nat :=
  classes.foldl (fun counts c => counts.adjust c.label fun known? => known?.getD 0 + 1) ∅

end MutantClass

namespace Taxonomy

/-- The classes of the given mutants in order; those that the descriptor does not know are passed
over, and the first rule name that cannot be read is an error. -/
def classifyMutants (t : Taxonomy) (descriptor : Descriptor) (ids : List String) (g : Granularity) :
    Except DecodeError (List MutantClass) :=
  (ids.filterMap fun id => (descriptor.get? id).map (id, ·)).mapM fun (id, record) => do
    return ⟨id, record.ruleName, ← t.classOf record.ruleName g⟩

end Taxonomy

end MutationRules
