import GraphDoc.Json
import GraphDoc.TypeRef

/-!
# Argument values

A value is a tree. Each node has a kind and its text; lists and objects have children, which are
named in an object and nameless in a list. `Value.check` decides whether a value has the shape that
a string of modifiers asks for, and `Misfit` says why it has not.
-/

set_option autoImplicit false

namespace GraphDoc

inductive ValueKind where
  | var | int | float | string | block | boolean | null | enum | list | object
deriving DecidableEq, Inhabited

namespace ValueKind

def text : ValueKind → String
  | var => "Variable"
  | int => "Int"
  | float => "Float"
  | string => "String"
  | block => "Block"
  | boolean => "Boolean"
  | null => "Null"
  | enum => "Enum"
  | list => "List"
  | object => "Object"

def all : List ValueKind :=
  [var, int, float, string, block, boolean, null, enum, list, object]

def ofText? (s : String) : Option ValueKind := all.find? (·.text == s)

/-- Only lists and objects own child values. -/
def hasChildren : ValueKind → Bool
  | list | object => true
  | _ => false

end ValueKind

inductive Value where
  | node (kind : ValueKind) (raw : String) (children : List (Option String × Value))
deriving Inhabited

namespace Value

def kind : Value → ValueKind
  | node kind _ _ => kind

def raw : Value → String
  | node _ raw _ => raw

def children : Value → List (Option String × Value)
  | node _ _ children => children

def leaf (kind : ValueKind) (raw : String) : Value := node kind raw []

mutual

def print : Value → String
  | node kind raw children =>
    match kind with
    | .var => "$" ++ raw
    | .string => Json.quote raw
    | .block => "\"\"\"" ++ raw ++ "\"\"\""
    | .list => "[" ++ printItems children ++ "]"
    | .object => "\x7b" ++ printFields children ++ "\x7d"
    | _ => raw

def printItems : List (Option String × Value) → String
  | [] => ""
  | [(_, v)] => v.print
  | (_, v) :: c :: cs => v.print ++ ", " ++ printItems (c :: cs)

def printFields : List (Option String × Value) → String
  | [] => ""
  | [(name, v)] => name.getD "" ++ ": " ++ v.print
  | (name, v) :: c :: cs => name.getD "" ++ ": " ++ v.print ++ ", " ++ printFields (c :: cs)

end

def composite (kind : ValueKind) (children : List (Option String × Value)) : Value :=
  node kind (print (node kind "" children)) children

def field? (name : String) (v : Value) : Option Value :=
  (v.children.find? (·.1 == some name)).map (·.2)

inductive Misfit where
  | isNull
  | isEmptyList
  | notList (found : String)
  | notSingle (found : String)
  | noText
  | item (index : Nat) (reason : Misfit)
deriving DecidableEq

namespace Misfit

def message : Misfit → String
  | isNull => "expected a non-null value"
  | isEmptyList => "expected a non-empty list"
  | notList found => "expected a list, found " ++ found
  | notSingle found => "expected a single value, found " ++ found
  | noText => "expected a value"
  | item index reason => reason.message ++ " at index " ++ toString index

end Misfit

/-- A value where a single one is expected. The fields of an object are not looked at. -/
def checkSingle (v : Value) : Except Misfit Unit :=
  match v.kind with
  | .list => .error (.notSingle v.print)
  | .object | .null | .string | .block => .ok ()
  | _ => if v.raw.isEmpty then .error .noText else .ok ()

def checkItems (check : Value → Except Misfit Unit) :
    Nat → List (Option String × Value) → Except Misfit Unit
  | _, [] => .ok ()
  | index, (_, v) :: rest =>
    match check v with
    | .error reason => .error (.item index reason)
    | .ok () => checkItems check (index + 1) rest

/-- Reads the modifiers from the outside in, so they are given in reverse. A variable fits
everywhere, and a non-null list must have an item. -/
def checkOuter : List Char → Value → Except Misfit Unit
  | [], v => if v.kind = .var then .ok () else checkSingle v
  | c :: inner, v =>
    if v.kind = .var then .ok ()
    else if c = '!' then
      if v.kind = .null then .error .isNull
      else if inner.head? = some ']' && v.kind = .list && v.children.isEmpty then
        .error .isEmptyList
      else checkOuter inner v
    else if c = ']' then
      match v.kind with
      | .null => .ok ()
      | .list => checkItems (checkOuter inner) 0 v.children
      | _ => .error (.notList v.print)
    else checkSingle v

def check (v : Value) (modifiers : String) : Except Misfit Unit :=
  checkOuter modifiers.toList.reverse v

end Value

end GraphDoc
