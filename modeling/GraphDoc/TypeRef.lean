import GraphDoc.Text

/-!
# Type references

A type is a tree of list and non-null wrappers around a name. Tables keep it flat: the base name
and the wrappers as a string of modifiers, read from the inside out, in which `]` is a list and `!`
a non-null wrapper. Opening brackets are dropped and counted back when the type is printed.
-/

set_option autoImplicit false

namespace GraphDoc

inductive TypeExpr where
  | named (name : String)
  | list (item : TypeExpr)
  | nonNull (item : TypeExpr)
deriving DecidableEq, Inhabited

namespace TypeExpr

def text : TypeExpr → String
  | named name => name
  | list item => "[" ++ item.text ++ "]"
  | nonNull item => item.text ++ "!"

end TypeExpr

/-- A base name and the wrappers around it. -/
structure TypeRef where
  name : String
  modifiers : String
deriving DecidableEq, Inhabited

/-- The modifier `!` or `]` at the outside of a string of modifiers, with what it wraps. -/
def Modifiers.strip? (wrapper : Char) (modifiers : List Char) : Option (List Char) :=
  match modifiers.reverse with
  | c :: inner => if c = wrapper then some inner.reverse else none
  | [] => none

/-- The modifiers of the items of a list type: `!]!` becomes `!`. -/
def Modifiers.itemChars (modifiers : List Char) : List Char :=
  let inner := (Modifiers.strip? '!' modifiers).getD modifiers
  (Modifiers.strip? ']' inner).getD inner

def Modifiers.item (modifiers : String) : String :=
  String.ofList (Modifiers.itemChars modifiers.toList)

def Modifiers.isList (modifiers : String) : Bool := modifiers.toList.contains ']'

def Modifiers.isNonNull (modifiers : String) : Bool := modifiers.toList.getLast? == some '!'

namespace TypeRef

def isWrapper (c : Char) : Bool := c = '[' || c = ']' || c = '!'

def isNameStart (c : Char) : Bool := c.isAlpha || c = '_'

def isNameChar (c : Char) : Bool := c.isAlphanum || c = '_'

/-- The longest name at the front, which is empty if the text starts with a digit. -/
def splitName (cs : List Char) : List Char × List Char :=
  match cs with
  | c :: _ => if isNameStart c then (cs.takeWhile isNameChar, cs.dropWhile isNameChar) else ([], cs)
  | [] => ([], [])

/-- Splits a type text: `[User!]!` becomes `User` with the modifiers `!]!`. The leading wrappers are
dropped, the name is read and all that follows is kept. -/
def ofText (text : String) : TypeRef :=
  let (name, modifiers) := splitName (text.toList.dropWhile isWrapper)
  ⟨String.ofList name, String.ofList modifiers⟩

def ofExpr (type : TypeExpr) : TypeRef := ofText type.text

def isList (t : TypeRef) : Bool := Modifiers.isList t.modifiers

def isNonNull (t : TypeRef) : Bool := Modifiers.isNonNull t.modifiers

def text (t : TypeRef) : String :=
  String.ofList (List.replicate (t.modifiers.toList.count ']') '[') ++ t.name ++ t.modifiers

def item (t : TypeRef) : TypeRef := ⟨t.name, Modifiers.item t.modifiers⟩

end TypeRef

end GraphDoc
