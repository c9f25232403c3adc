import GraphDoc.Document.Kind
import GraphDoc.Grammar.Parser

/-!
# Documents

Operations and fragments as they are written, and their parser. A definition stands at its keyword
or opening brace, a field at its first name, and an inline fragment or spread at the token after the
dots.
-/

set_option autoImplicit false

namespace GraphDoc.Grammar

structure VariableDefinition where
  name : String
  type : TypeExpr
  default? : Option Literal
  position : Position
deriving Inhabited

inductive Selection where
  | field (position : Position) (label? : Option String) (name : String)
      (arguments : List (String × Literal)) (directives : List Directive)
      (selections : List Selection)
  | inline (position : Position) (condition? : Option String) (directives : List Directive)
      (selections : List Selection)
  | spread (position : Position) (name : String) (directives : List Directive)
deriving Inhabited

/-- An operation. A bare selection set is a query without a name. `body` is the position of the
brace that opens the selections. -/
structure Operation where
  kind : DocumentKind
  name? : Option String
  declarations : List VariableDefinition
  directives : List Directive
  selections : List Selection
  position : Position
  body : Position
deriving Inhabited

structure Fragment where
  name : String
  condition : String
  directives : List Directive
  selections : List Selection
  position : Position
deriving Inhabited

inductive Definition where
  | operation (o : Operation)
  | fragment (f : Fragment)
deriving Inhabited

open GraphDoc.Grammar.Parser

mutual

def selectionSet : Nat → Parser (List Selection)
  | 0 => fail
  | fuel + 1 => do
    punct .openBrace
    someUntil .closeBrace (selection fuel)

def selection : Nat → Parser Selection
  | 0 => fail
  | fuel + 1 => do
    if ← optionalPunct .dots then
      let position := (← peek).position
      if ← optionalWord "on" then
        let condition ← name
        let ds ← directives fuel
        let body ← selectionSet fuel
        return .inline position (some condition) ds body
      else match ← nextWord? with
        | some target =>
          advance
          let ds ← directives fuel
          return .spread position target ds
        | none =>
          let ds ← directives fuel
          let body ← selectionSet fuel
          return .inline position none ds body
    else
      let position := (← peek).position
      let first ← name
      let second? ← if ← optionalPunct .colon then some <$> name else pure none
      let args ← arguments fuel
      let ds ← directives fuel
      let body ← if ← nextIs .openBrace then selectionSet fuel else pure []
      match second? with
      | some second => return .field position (some first) second args ds body
      | none => return .field position none first args ds body

end

def variableDefinition (fuel : Nat) : Parser VariableDefinition := do
  let position := (← peek).position
  punct .dollar
  let text ← name
  punct .colon
  let type ← typeExpr fuel
  let default? ← if ← optionalPunct .equals then some <$> literal true fuel else pure none
  return ⟨text, type, default?, position⟩

def operationKind? (word : String) : Option DocumentKind :=
  [DocumentKind.query, .mutation, .subscription].find? (·.text == word)

def operation (fuel : Nat) (kind : DocumentKind) : Parser Operation := do
  let position := (← peek).position
  advance
  let name? ← nextWord?
  if name?.isSome then advance
  let declarations ←
    if ← optionalPunct .openParen then someUntil .closeParen (variableDefinition fuel)
    else pure []
  let ds ← directives fuel
  let body := (← peek).position
  let selections ← selectionSet fuel
  return ⟨kind, name?, declarations, ds, selections, position, body⟩

def fragment (fuel : Nat) : Parser Fragment := do
  let position := (← peek).position
  word "fragment"
  let text ← name
  word "on"
  let condition ← name
  let ds ← directives fuel
  let selections ← selectionSet fuel
  return ⟨text, condition, ds, selections, position⟩

def definition (fuel : Nat) : Parser Definition := do
  let head ← peek
  match head.token with
  | .punct .openBrace =>
    let selections ← selectionSet fuel
    return .operation ⟨.query, none, [], [], selections, head.position, head.position⟩
  | .name keyword =>
    match operationKind? keyword with
    | some kind => return .operation (← operation fuel kind)
    | none => return .fragment (← fragment fuel)
  | _ => fail

/-- The definitions of a document, or where it stops being one. -/
def parseDocument (text : String) : Except Position (List Definition) :=
  parseWith (fun fuel => definitionsUntilEnd (definition fuel)) text

end GraphDoc.Grammar
