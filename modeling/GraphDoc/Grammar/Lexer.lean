import GraphDoc.Grammar.Token

/-!
# Reading tokens

The lexer is a fold of `step` over the characters, so it reads every text to its end. Its mode says
in the middle of what it is. Between tokens a tab counts for eight columns, a space or comma for one
and a carriage return or byte order mark for none. A comment does not move the position until the
line break that ends it.
-/

set_option autoImplicit false

namespace GraphDoc.Grammar

/-- What the lexer is in the middle of. The characters read are in reverse. -/
inductive Mode where
  | between
  | comment
  | name (start : Position) (read : List Char)
  | number (start : Position) (read : List Char)
  | dots (start : Position) (count : Nat)
  | quote (start : Position)
  | quotes (start : Position)
  | string (start : Position) (read : List Char) (escaped : Bool)
  | block (start : Position) (read : List Char) (quotes : Nat)
  | stuck (start : Position)
deriving DecidableEq, Inhabited

/-- `depth` counts the brackets that are open. -/
structure LexerState where
  position : Position := ⟨1, 1⟩
  depth : Nat := 0
  mode : Mode := .between
  lexemes : List Lexeme := []
deriving DecidableEq, Inhabited

def depthLimit : Nat := 50

namespace LexerState

def move (s : LexerState) (columns : Int) : LexerState :=
  { s with position := ⟨s.position.line, s.position.column + columns⟩ }

def newLine (s : LexerState) : LexerState :=
  { s with position := ⟨s.position.line + 1, 1⟩ }

def enter (s : LexerState) (mode : Mode) : LexerState := { s with mode }

def emit (s : LexerState) (start : Position) (token : Token) : LexerState :=
  { s with mode := .between, lexemes := ⟨token, start⟩ :: s.lexemes }

/-- Emits a token, or stops at its start if its text denotes none. -/
def emit? (s : LexerState) (start : Position) : Option Token → LexerState
  | some token => s.emit start token
  | none => s.enter (.stuck start)

def emitPunct (s : LexerState) (p : Punct) : LexerState :=
  if p.isOpening then
    if s.depth < depthLimit then
      ({ s with depth := s.depth + 1 }.emit s.position (.punct p)).move 1
    else s.enter (.stuck s.position)
  else if p.isClosing then
    ({ s with depth := s.depth - 1 }.emit s.position (.punct p)).move 1
  else (s.emit s.position (.punct p)).move 1

def start (s : LexerState) (c : Char) : LexerState :=
  if c = ' ' || c = ',' then s.move 1
  else if c = '\t' then s.move 8
  else if c = '\r' || c = '\ufeff' then s
  else if c = '\n' then s.newLine
  else if c = '#' then s.enter .comment
  else if c = '.' then (s.enter (.dots s.position 1)).move 1
  else if c = '"' then (s.enter (.quote s.position)).move 1
  else if isNameStart c then (s.enter (.name s.position [c])).move 1
  else if isNumberStart c then (s.enter (.number s.position [c])).move 1
  else match punct? c with
    | some p => s.emitPunct p
    | none => s.enter (.stuck s.position)

def stringToken? (read : List Char) : Option Token :=
  (unescape read.reverse).map fun text => .string (String.ofList text)

def inString (s : LexerState) (start : Position) (read : List Char) (escaped : Bool) (c : Char) :
    LexerState :=
  if c = '"' && !escaped then (s.emit? start (stringToken? read)).move 1
  else if c = '\n' then s.enter (.stuck start)
  else (s.enter (.string start (c :: read) (!escaped && c = '\\'))).move 1

/-- Takes a character inside a block string. Three quotes end it unless a backslash precedes
them. -/
def inBlock (s : LexerState) (start : Position) (read : List Char) (quotes : Nat) (c : Char) :
    LexerState :=
  if c = '"' then
    if quotes < 2 then (s.enter (.block start (c :: read) (quotes + 1))).move 1
    else if (read.drop 2).head? = some '\\' then (s.enter (.block start (c :: read) 0)).move 1
    else
      (s.emit start (.string (String.ofList (blockText (read.drop 2).reverse)))).move 1
  else if c = '\n' then (s.enter (.block start (c :: read) 0)).newLine
  else (s.enter (.block start (c :: read) 0)).move 1

def step (s : LexerState) (c : Char) : LexerState :=
  match s.mode with
  | .between => s.start c
  | .comment => if c = '\n' || c = '\r' then (s.enter .between).newLine else s
  | .name start read =>
    if isNameChar c then (s.enter (.name start (c :: read))).move 1
    else (s.emit start (.name (String.ofList read.reverse))).start c
  | .number start read =>
    if endsNumber c then
      match number? read.reverse with
      | some token => (s.emit start token).start c
      | none => s.enter (.stuck start)
    else (s.enter (.number start (c :: read))).move 1
  | .dots start count =>
    if c = '.' then
      if count < 2 then (s.enter (.dots start (count + 1))).move 1
      else (s.emit start (.punct .dots)).move 1
    else s.enter (.stuck start)
  | .quote start =>
    if c = '"' then (s.enter (.quotes start)).move 1 else s.inString start [] false c
  | .quotes start =>
    if c = '"' then (s.enter (.block start [] 0)).move 1
    else (s.emit start (.string "")).start c
  | .string start read escaped => s.inString start read escaped c
  | .block start read quotes => s.inBlock start read quotes c
  | .stuck _ => s

def finish (s : LexerState) : LexerState :=
  match s.mode with
  | .between | .comment | .stuck _ => s
  | .name start read => s.emit start (.name (String.ofList read.reverse))
  | .number start read => s.emit? start (number? read.reverse)
  | .quotes start => s.emit start (.string "")
  | .dots start _ | .quote start | .string start _ _ | .block start _ _ =>
    s.enter (.stuck start)

def result (s : LexerState) : List Lexeme :=
  let s := s.finish
  match s.mode with
  | .stuck start => (⟨.unreadable, start⟩ :: s.lexemes).reverse
  | _ => (⟨.endOfText, s.position⟩ :: s.lexemes).reverse

end LexerState

def tokens (cs : List Char) : List Lexeme :=
  (cs.foldl LexerState.step {}).result

end GraphDoc.Grammar
