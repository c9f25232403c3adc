import GraphDoc.Number.Binary64
import GraphDoc.Value

/-!
# Literals

Values as they are written. The fields of an object are in ascending order of their names, each name
once. `Literal.toValue` gives the tree that the tables hold.
-/

set_option autoImplicit false

namespace GraphDoc.Grammar

inductive Literal where
  | var (name : String)
  | int (value : Int)
  | float (value : Binary64)
  | string (text : String)
  | boolean (value : Bool)
  | null
  | enum (name : String)
  | list (items : List Literal)
  | object (fields : List (String × Literal))
deriving Inhabited

namespace Literal

mutual

/-- A float is written with the fewest digits that read back. -/
def toValue : Literal → Value
  | var name => .leaf .var name
  | int value => .leaf .int (toString value)
  | float value => .leaf .float value.text
  | string text => .leaf .string text
  | boolean value => .leaf .boolean (if value then "true" else "false")
  | null => .leaf .null "null"
  | enum name => .leaf .enum name
  | list items => .composite .list (itemValues items)
  | object fields => .composite .object (fieldValues fields)

def itemValues : List Literal → List (Option String × Value)
  | [] => []
  | item :: items => (none, item.toValue) :: itemValues items

def fieldValues : List (String × Literal) → List (Option String × Value)
  | [] => []
  | (name, l) :: fields => (some name, l.toValue) :: fieldValues fields

end

end Literal

end GraphDoc.Grammar
