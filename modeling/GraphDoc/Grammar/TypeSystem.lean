import GraphDoc.Grammar.Parser

/-!
# Schemas

Schema definitions as they are written, and their parser. Directives on definitions are read and
dropped, and so are the interfaces of an interface.
-/

set_option autoImplicit false

namespace GraphDoc.Grammar

structure InputValue where
  description? : Option String
  name : String
  type : TypeExpr
  default? : Option Literal
deriving Inhabited

structure FieldDefinition where
  description? : Option String
  name : String
  arguments : List InputValue
  type : TypeExpr
deriving Inhabited

inductive TypeDefinition where
  | scalar (name : String)
  | object (name : String) (interfaces : List String) (fields : List FieldDefinition)
  | interface (name : String) (fields : List FieldDefinition)
  | union (name : String) (members : List String)
  | enum (name : String) (values : List String)
  | input (name : String) (fields : List InputValue)
deriving Inhabited

structure DirectiveDefinition where
  description? : Option String
  name : String
  arguments : List InputValue
  repeatable : Bool
  locations : List String
deriving Inhabited

structure SchemaRoots where
  query? : Option String := none
  mutation? : Option String := none
  subscription? : Option String := none
deriving Inhabited

inductive SchemaDefinition where
  | roots (r : SchemaRoots)
  | type (t : TypeDefinition)
  | extension (t : TypeDefinition)
  | directive (d : DirectiveDefinition)
deriving Inhabited

open GraphDoc.Grammar.Parser

def directiveLocations : List String :=
  ["QUERY", "MUTATION", "SUBSCRIPTION", "FIELD", "FRAGMENT_DEFINITION", "FRAGMENT_SPREAD",
    "INLINE_FRAGMENT", "VARIABLE_DEFINITION", "SCHEMA", "SCALAR", "OBJECT", "FIELD_DEFINITION",
    "ARGUMENT_DEFINITION", "INTERFACE", "UNION", "ENUM", "ENUM_VALUE", "INPUT_OBJECT",
    "INPUT_FIELD_DEFINITION"]

def description? : Parser (Option String) := do
  match (← peek).token with
  | .string text => advance; return some text
  | _ => return none

def inputValue (fuel : Nat) : Parser InputValue := do
  let about? ← description?
  let text ← name
  punct .colon
  let type ← typeExpr fuel
  let default? ← if ← optionalPunct .equals then some <$> literal true fuel else pure none
  let _ ← directives fuel
  return ⟨about?, text, type, default?⟩

def argumentDefinitions (fuel : Nat) : Parser (List InputValue) := do
  if ← optionalPunct .openParen then someUntil .closeParen (inputValue fuel) else return []

def fieldDefinition (fuel : Nat) : Parser FieldDefinition := do
  let about? ← description?
  let text ← name
  let args ← argumentDefinitions fuel
  punct .colon
  let type ← typeExpr fuel
  let _ ← directives fuel
  return ⟨about?, text, args, type⟩

/-- A braced part of a definition with at least one item, or no such part. -/
def braced? {α : Type} (item : Parser α) : Parser (Option (List α)) := do
  if ← optionalPunct .openBrace then some <$> someUntil .closeBrace item else return none

def implements : Parser (List String) := do
  if ← optionalWord "implements" then
    let _ ← optionalPunct .ampersand
    separated .ampersand name
  else return []

def enumValue (fuel : Nat) : Parser String := do
  let _ ← description?
  let text ← name
  let _ ← directives fuel
  return text

def unionMembers? : Parser (Option (List String)) := do
  if ← optionalPunct .equals then
    let _ ← optionalPunct .pipe
    some <$> separated .pipe name
  else return none

/-- Reads a type definition and tells whether it says anything beyond the name. -/
def typeBody (fuel : Nat) (keyword : String) : Parser (TypeDefinition × Bool) := do
  match keyword with
  | "scalar" =>
    let text ← name
    let ds ← directives fuel
    return (.scalar text, !ds.isEmpty)
  | "type" =>
    let text ← name
    let interfaces ← implements
    let ds ← directives fuel
    let fields? ← braced? (fieldDefinition fuel)
    return (.object text interfaces (fields?.getD []),
      !interfaces.isEmpty || !ds.isEmpty || fields?.isSome)
  | "interface" =>
    let text ← name
    let _ ← implements
    let ds ← directives fuel
    let fields? ← braced? (fieldDefinition fuel)
    return (.interface text (fields?.getD []), !ds.isEmpty || fields?.isSome)
  | "union" =>
    let text ← name
    let ds ← directives fuel
    let members? ← unionMembers?
    return (.union text (members?.getD []), !ds.isEmpty || members?.isSome)
  | "enum" =>
    let text ← name
    let ds ← directives fuel
    let values? ← braced? (enumValue fuel)
    return (.enum text (values?.getD []), !ds.isEmpty || values?.isSome)
  | _ =>
    let text ← name
    let ds ← directives fuel
    let fields? ← braced? (inputValue fuel)
    return (.input text (fields?.getD []), !ds.isEmpty || fields?.isSome)

def typeKeywords : List String := ["scalar", "type", "interface", "union", "enum", "input"]

def directiveLocation : Parser String := do
  match ← nextWord? with
  | some text => if text ∈ directiveLocations then advance; return text else fail
  | none => fail

def directiveDefinition (fuel : Nat) (about? : Option String) : Parser DirectiveDefinition := do
  punct .atSign
  let text ← name
  let args ← argumentDefinitions fuel
  let repeatable ← optionalWord "repeatable"
  word "on"
  let leading ← optionalPunct .pipe
  let more ← nextWord?
  let locations ←
    if leading || more.isSome then separated .pipe directiveLocation else pure []
  return ⟨about?, text, args, repeatable, locations⟩

/-- Each root is named at most once, and there are no others. -/
def schemaRoots? (pairs : List (String × String)) : Option SchemaRoots :=
  let names := pairs.map (·.1)
  if names.all (fun n => n ∈ ["query", "mutation", "subscription"] && names.count n == 1) then
    some ⟨pairs.lookup "query", pairs.lookup "mutation", pairs.lookup "subscription"⟩
  else none

/-- A schema block. What is wrong with its names is reported at the keyword. -/
def schemaBlock (fuel : Nat) (position : Position) : Parser SchemaRoots := do
  let _ ← directives fuel
  punct .openBrace
  let pairs ← manyUntil .closeBrace (named name)
  match schemaRoots? pairs with
  | some roots => return roots
  | none => failAt position

/-- An extension that adds nothing is reported at the keyword after `extend`. -/
def extension (fuel : Nat) : Parser TypeDefinition := do
  let head ← peek
  match head.token with
  | .name keyword =>
    if keyword ∈ typeKeywords then
      advance
      let (t, adds) ← typeBody fuel keyword
      if adds then return t else failAt head.position
    else fail
  | _ => fail

def describedDefinition (fuel : Nat) (about? : Option String) : Parser SchemaDefinition := do
  match ← nextWord? with
  | some keyword =>
    if keyword ∈ typeKeywords then
      advance
      let (t, _) ← typeBody fuel keyword
      return .type t
    else if keyword == "directive" then
      advance
      return .directive (← directiveDefinition fuel about?)
    else fail
  | none => fail

def schemaDefinition (fuel : Nat) : Parser SchemaDefinition := do
  let position := (← peek).position
  if ← optionalWord "schema" then return .roots (← schemaBlock fuel position)
  else if ← optionalWord "extend" then return .extension (← extension fuel)
  else describedDefinition fuel (← description?)

def parseSchema (text : String) : Except Position (List SchemaDefinition) :=
  parseWith (fun fuel => definitionsUntilEnd (schemaDefinition fuel)) text

end GraphDoc.Grammar
