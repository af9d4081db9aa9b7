import MutationRules.Number.Binary64
import MutationRules.Ordered.Map

/-!
# JSON values

Values as they are written, with the members of an object in written order, and the normal form in
which every object lists each of its keys once, in order, with the last value given for it.
-/

namespace MutationRules.Json

/-- A number: exact if it was written as an integer within range, otherwise a double. -/
inductive Number
  | integer (value : Int)
  | double (negative : Bool) (magnitude : Binary64)
  deriving DecidableEq, Repr

/-- A JSON value. -/
inductive Value
  | null
  | bool (value : Bool)
  | number (value : Number)
  | string (text : String)
  | array (items : List Value)
  | object (members : List (String × Value))
  deriving Repr, Inhabited

namespace Value

mutual

/-- The value with the members of every object in order and without repeated keys. -/
def normalized : Value → Value
  | .array items => .array (normalizedItems items)
  | .object members => .object (OrderedMap.ofList (normalizedMembers members)).entries
  | value => value

/-- Items in normal form. -/
def normalizedItems : List Value → List Value
  | [] => []
  | item :: rest => normalized item :: normalizedItems rest

/-- Members with values in normal form. -/
def normalizedMembers : List (String × Value) → List (String × Value)
  | [] => []
  | (key, value) :: rest => (key, normalized value) :: normalizedMembers rest

end

theorem normalizedItems_eq (items : List Value) : normalizedItems items = items.map normalized := by
  induction items with
  | nil => rw [normalizedItems, List.map_nil]
  | cons item rest ih => rw [normalizedItems, ih, List.map_cons]

theorem normalizedMembers_eq (members : List (String × Value)) :
    normalizedMembers members = members.map fun m => (m.1, m.2.normalized) := by
  induction members with
  | nil => rw [normalizedMembers, List.map_nil]
  | cons m rest ih => obtain ⟨key, value⟩ := m; rw [normalizedMembers, ih, List.map_cons]

/-- The text of a string. -/
def string? : Value → Option String
  | .string text => some text
  | _ => none

/-- The texts of an array of strings. -/
def strings? : Value → Option (List String)
  | .array items => items.mapM string?
  | _ => none

/-- The members of an object as they are written. -/
def members? : Value → Option (List (String × Value))
  | .object members => some members
  | _ => none

end Value

end MutationRules.Json
