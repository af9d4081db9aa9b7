import MutationRules.RuleName.Basic

/-!
# Reading rule names

A name is read without its blanks. It has two sides; each is a mnemonic and any number of non-empty
operands, every one after a dollar sign, and may end in one more dollar sign.
-/

namespace MutationRules

/-- Why a rule name cannot be classified. -/
inductive DecodeError
  /-- The name does not have two sides of the right form. -/
  | malformedName (name : String)
  /-- A side does not begin with a mnemonic. -/
  | unknownOperator (name token : String)
  /-- No granularity has the given level. -/
  | invalidLevel (level : Int)
  deriving DecidableEq, Repr

namespace DecodeError

/-- The reason in words. -/
def message : DecodeError → String
  | malformedName name => s!"Malformed rule name '{name}': expected '<matcher>!<replacer>'"
  | unknownOperator name token => s!"Unknown operator '{token}' in rule name '{name}'"
  | invalidLevel level => s!"Invalid classification level {level} (expected -1 or 1..=5)"

end DecodeError

namespace RuleName

/-- The parts of a side after its mnemonic, less the empty one that a closing separator leaves. -/
def withoutClosing (parts : List (List Char)) : List (List Char) :=
  if parts.getLast? = some [] then parts.dropLast else parts

/-- Read one side of a name, for errors the side of `name`. -/
def decodeSide (name : String) (side : List Char) : Except DecodeError Side :=
  let parts := side.splitOn operandSeparator
  let token := String.ofList (parts.headD [])
  match Operator.ofToken? token with
  | none => .error (.unknownOperator name token)
  | some op =>
    let operands := withoutClosing parts.tail
    if [] ∈ operands then .error (.malformedName name)
    else .ok ⟨op, operands.map String.ofList⟩

/-- Read a name: the first fault counts, from the matched side to the replacement. -/
def decode (name : String) : Except DecodeError RuleName :=
  match (Text.unspaced name.toList).splitOn sideSeparator with
  | [matched, replacement] => do
    let matched ← decodeSide name matched
    let replacement ← decodeSide name replacement
    return ⟨matched, replacement⟩
  | _ => .error (.malformedName name)

end RuleName

end MutationRules
