import MutationRules.Json.Token

/-!
# Reading JSON

Tokens are read from left to right against the containers that are open. At most 127 containers may
be open at a time.
-/

namespace MutationRules.Json

namespace Reader

/-- A container that is still open, with what it holds so far, last first. -/
inductive Frame
  | array (items : List Value)
  | object (members : List (String × Value)) (key : String)

/-- What may come next; every state but the last has a list of open containers. -/
inductive State
  /-- A value. -/
  | value (frames : List Frame)
  /-- The first item of an array, or its end. -/
  | firstItem (frames : List Frame)
  /-- The first key of an object, or its end. -/
  | firstKey (frames : List Frame)
  /-- A further key of an object. -/
  | key (members : List (String × Value)) (frames : List Frame)
  /-- The colon after a key. -/
  | colon (members : List (String × Value)) (key : String) (frames : List Frame)
  /-- A comma or the end of the innermost container, after one of its values. -/
  | next (frame : Frame) (frames : List Frame)
  /-- Nothing. -/
  | complete (value : Value)

/-- The number of containers that may be open. -/
def depthLimit : Nat := 127

/-- The state after a whole value. -/
def close (value : Value) : List Frame → State
  | [] => .complete value
  | .array items :: frames => .next (.array (value :: items)) frames
  | .object members key :: frames => .next (.object ((key, value) :: members) key) frames

/-- The state after the first token of a value. -/
def enter (frames : List Frame) : Token → Option State
  | .atom value => some (close value frames)
  | .openArray => if frames.length < depthLimit then some (.firstItem frames) else none
  | .openObject => if frames.length < depthLimit then some (.firstKey frames) else none
  | _ => none

/-- The state after one more token. -/
def step : State → Token → Option State
  | .value frames, token => enter frames token
  | .firstItem frames, .closeArray => some (close (.array []) frames)
  | .firstItem frames, token => enter (.array [] :: frames) token
  | .firstKey frames, .closeObject => some (close (.object []) frames)
  | .firstKey frames, .atom (.string key) => some (.colon [] key frames)
  | .key members frames, .atom (.string key) => some (.colon members key frames)
  | .colon members key frames, .colon => some (.value (.object members key :: frames))
  | .next (.array items) frames, .comma => some (.value (.array items :: frames))
  | .next (.array items) frames, .closeArray => some (close (.array items.reverse) frames)
  | .next (.object members _) frames, .comma => some (.key members frames)
  | .next (.object members _) frames, .closeObject =>
    some (close (.object members.reverse) frames)
  | _, _ => none

end Reader

namespace Value

/-- The value that a list of tokens writes. -/
def ofTokens? (tokens : List Token) : Option Value := do
  match ← tokens.foldlM Reader.step (.value []) with
  | .complete value => some value
  | _ => none

/-- The value that a text writes. -/
def parse? (text : String) : Option Value := do ofTokens? (← Token.ofChars? text.toList)

end Value

end MutationRules.Json
