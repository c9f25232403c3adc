import GraphDoc.Grammar.Lexer
import GraphDoc.Grammar.Literal

/-!
# Parsing

A parser takes tokens from the front of a list. It looks one token ahead and never goes back, so it
fails at the first token that cannot continue the grammar. The parsers here read what documents and
schemas share: names, types, values, arguments and directives.
-/

set_option autoImplicit false

namespace GraphDoc.Grammar

/-- The error of a parser is the position at which it stopped. -/
abbrev Parser := StateT (List Lexeme) (Except Position)

namespace Parser

variable {α : Type}

def peek : Parser Lexeme := fun ts => .ok (ts.headD ⟨.unreadable, ⟨0, 0⟩⟩, ts)

def advance : Parser Unit := fun ts => .ok ((), ts.drop 1)

def failAt (p : Position) : Parser α := fun _ => .error p

def fail : Parser α := do failAt (← peek).position

def nextIs (p : Punct) : Parser Bool := do return (← peek).token == .punct p

def punct (p : Punct) : Parser Unit := do
  if ← nextIs p then advance else fail

def optionalPunct (p : Punct) : Parser Bool := do
  if ← nextIs p then advance; return true else return false

def nextWord? : Parser (Option String) := do
  match (← peek).token with
  | .name text => return some text
  | _ => return none

def name : Parser String := do
  match ← nextWord? with
  | some text => advance; return text
  | none => fail

def nextIsWord (word : String) : Parser Bool := do return (← nextWord?) == some word

def word (expected : String) : Parser Unit := do
  if ← nextIsWord expected then advance else fail

def optionalWord (expected : String) : Parser Bool := do
  if ← nextIsWord expected then advance; return true else return false

def itemsUntil (close : Punct) (item : Parser α) : Nat → Parser (List α)
  | 0 => fail
  | fuel + 1 => do
    if ← optionalPunct close then return []
    else
      let a ← item
      let as ← itemsUntil close item fuel
      return a :: as

def manyUntil (close : Punct) (item : Parser α) : Parser (List α) := fun ts =>
  itemsUntil close item (ts.length + 1) ts

def someUntil (close : Punct) (item : Parser α) : Parser (List α) := do
  let a ← item
  let as ← manyUntil close item
  return a :: as

def itemsWhile (more : Parser Bool) (item : Parser α) : Nat → Parser (List α)
  | 0 => return []
  | fuel + 1 => do
    if ← more then
      let a ← item
      let as ← itemsWhile more item fuel
      return a :: as
    else return []

def manyWhile (more : Parser Bool) (item : Parser α) : Parser (List α) := fun ts =>
  itemsWhile more item (ts.length + 1) ts

/-- `item (sep item)*`. -/
def separated (sep : Punct) (item : Parser α) : Parser (List α) := do
  let a ← item
  let as ← manyWhile (nextIs sep) (do punct sep; item)
  return a :: as

end Parser

open GraphDoc.Grammar.Parser

/-- An argument, an object field and so on: a name, a colon and what `item` reads. -/
def named {α : Type} (item : Parser α) : Parser (String × α) := do
  let key ← name
  punct .colon
  let a ← item
  return (key, a)

/-- Every level of nesting takes one unit of fuel. -/
def typeExpr : Nat → Parser TypeExpr
  | 0 => fail
  | fuel + 1 => do
    let base ←
      if ← optionalPunct .openBracket then
        let item ← typeExpr fuel
        punct .closeBracket
        pure (TypeExpr.list item)
      else
        let text ← name
        pure (TypeExpr.named text)
    if ← optionalPunct .bang then return .nonNull base else return base

/-- A constant holds no variable at any depth. -/
def literal (constant : Bool) : Nat → Parser Literal
  | 0 => fail
  | fuel + 1 => do
    match (← peek).token with
    | .int value => advance; return .int value
    | .float value => advance; return .float value
    | .string text => advance; return .string text
    | .name text =>
      advance
      return match text with
        | "true" => .boolean true
        | "false" => .boolean false
        | "null" => .null
        | _ => .enum text
    | .punct .openBracket =>
      advance
      let items ← manyUntil .closeBracket (literal constant fuel)
      return .list items
    | .punct .openBrace =>
      advance
      let fields ← manyUntil .closeBrace (named (literal constant fuel))
      return .object (NameMap.ofPairs fields)
    | .punct .dollar =>
      if constant then fail
      else
        advance
        let text ← name
        return .var text
    | _ => fail

structure Directive where
  name : String
  arguments : List (String × Literal)
  position : Position
deriving Inhabited

def arguments (fuel : Nat) : Parser (List (String × Literal)) := do
  if ← optionalPunct .openParen then someUntil .closeParen (named (literal false fuel))
  else return []

def directive (fuel : Nat) : Parser Directive := do
  let position := (← peek).position
  punct .atSign
  let text ← name
  let args ← arguments fuel
  return ⟨text, args, position⟩

def directives (fuel : Nat) : Parser (List Directive) :=
  manyWhile (nextIs .atSign) (directive fuel)

def definitionsUntilEnd {α : Type} (definition : Parser α) : Parser (List α) := do
  let first ← definition
  let rest ← manyWhile (do return (← peek).token != .endOfText) definition
  if (← peek).token == .endOfText then return first :: rest else fail

/-- Parses a text with fuel for as many levels as it has tokens. -/
def parseWith {α : Type} (p : Nat → Parser α) (text : String) : Except Position α :=
  let ts := tokens text.toList
  match p (ts.length + 1) ts with
  | .ok (a, _) => .ok a
  | .error position => .error position

end GraphDoc.Grammar
