import GraphDoc.Number.Whole
import GraphDoc.Order
import GraphDoc.Text

/-!
# JSON

Values with their members in the order written, a compact writer and a reader. The reader keeps
the digits of a number as written and keeps repeated members, so that those who read a value decide
what is a whole number and what a repetition means.
-/

set_option autoImplicit false

namespace GraphDoc

/-- `unreadable` is a value whose escapes are well formed but do not spell Unicode text. -/
inductive Json where
  | null
  | bool (b : Bool)
  | number (digits : String)
  | string (text : String)
  | array (items : List Json)
  | object (members : List (String × Json))
  | unreadable
deriving Inhabited

namespace Json

def hexDigit (n : Nat) : Char :=
  if n < 10 then Char.ofNat (48 + n) else Char.ofNat (87 + n)

/-- The quote, the backslash and the control characters below U+0020 are escaped; those with a
short form use it. -/
def escape (c : Char) : List Char :=
  if c = '"' then ['\\', '"']
  else if c = '\\' then ['\\', '\\']
  else if c.toNat = 8 then ['\\', 'b']
  else if c.toNat = 9 then ['\\', 't']
  else if c.toNat = 10 then ['\\', 'n']
  else if c.toNat = 12 then ['\\', 'f']
  else if c.toNat = 13 then ['\\', 'r']
  else if c.toNat < 32 then
    ['\\', 'u', '0', '0', hexDigit (c.toNat / 16), hexDigit (c.toNat % 16)]
  else [c]

def quoteChars (cs : List Char) : List Char :=
  '"' :: (cs.flatMap escape ++ ['"'])

def quote (s : String) : String := String.ofList (quoteChars s.toList)

mutual

def render : Json → String
  | null => "null"
  | bool b => if b then "true" else "false"
  | number digits => digits
  | string text => quote text
  | array items => "[" ++ renderItems items ++ "]"
  | object members => "\x7b" ++ renderMembers members ++ "\x7d"
  | unreadable => "null"

def renderItems : List Json → String
  | [] => ""
  | [v] => render v
  | v :: w :: vs => render v ++ "," ++ renderItems (w :: vs)

def renderMembers : List (String × Json) → String
  | [] => ""
  | [(name, v)] => quote name ++ ":" ++ render v
  | (name, v) :: m :: ms => quote name ++ ":" ++ render v ++ "," ++ renderMembers (m :: ms)

end

def ofInt (n : Int) : Json := number (toString n)

def ofNat (n : Nat) : Json := number (toString n)

def ofOption {α : Type} (f : α → Json) : Option α → Json
  | none => null
  | some a => f a

def member? (name : String) : Json → Option Json
  | object members => members.reverse.lookup name
  | _ => none

def natural? : Json → Option Nat
  | number digits =>
    if digits.toList.all Char.isDigit then some (Whole.ofDigits digits.toList) else none
  | _ => none

def integer? : Json → Option Int
  | number digits =>
    match digits.toList with
    | '-' :: ds => (natural? (number (String.ofList ds))).map fun n => -(n : Int)
    | _ => (natural? (number digits)).map fun n => (n : Int)
  | _ => none

def string? : Json → Option String
  | string text => some text
  | _ => none

def isSpace (c : Char) : Bool := c = ' ' || c = '\n' || c = '\t' || c = '\r'

def skipSpace (cs : List Char) : List Char := cs.dropWhile isSpace

def hexQuad? (a b c d : Char) : Option Nat := do
  let a ← Text.hexValue? a
  let b ← Text.hexValue? b
  let c ← Text.hexValue? c
  let d ← Text.hexValue? d
  return ((a * 16 + b) * 16 + c) * 16 + d

/-- Reads up to the closing quote. An escape gives a UTF-16 unit, any other character itself. -/
def readUnits : List Char → Option (List Nat × List Char)
  | [] => none
  | '"' :: cs => some ([], cs)
  | '\\' :: 'u' :: a :: b :: c :: d :: cs => do
    let unit ← hexQuad? a b c d
    let (units, rest) ← readUnits cs
    return (unit :: units, rest)
  | '\\' :: e :: cs => do
    let code ← match e with
      | '"' => some 34
      | '\\' => some 92
      | '/' => some 47
      | 'b' => some 8
      | 'f' => some 12
      | 'n' => some 10
      | 'r' => some 13
      | 't' => some 9
      | _ => none
    let (units, rest) ← readUnits cs
    return (code :: units, rest)
  | c :: cs =>
    if c.toNat < 32 || c = '\\' then none
    else do
      let (units, rest) ← readUnits cs
      return (c.toNat :: units, rest)

/-- Joins surrogate pairs; a surrogate that stands alone is no text. -/
def joinUnits : List Nat → Option (List Char)
  | [] => some []
  | hi :: lo :: units =>
    if 0xD800 ≤ hi && hi < 0xDC00 then
      if 0xDC00 ≤ lo && lo < 0xE000 then
        (joinUnits units).map (Char.ofNat (0x10000 + (hi - 0xD800) * 0x400 + (lo - 0xDC00)) :: ·)
      else none
    else if 0xDC00 ≤ hi && hi < 0xE000 then none
    else (joinUnits (lo :: units)).map (Char.ofNat hi :: ·)
  | [unit] => if 0xD800 ≤ unit && unit < 0xE000 then none else some [Char.ofNat unit]

def takeDigits (cs : List Char) : List Char × List Char :=
  (cs.takeWhile Char.isDigit, cs.dropWhile Char.isDigit)

/-- An integer part without a leading zero. -/
def readInteger (cs : List Char) : Option (List Char × List Char) :=
  match cs with
  | '0' :: rest => some (['0'], rest)
  | _ =>
    match takeDigits cs with
    | ([], _) => none
    | found => some found

def readFraction (cs : List Char) : Option (List Char × List Char) :=
  match cs with
  | '.' :: cs =>
    match takeDigits cs with
    | ([], _) => none
    | (ds, rest) => some ('.' :: ds, rest)
  | _ => some ([], cs)

def readExponent (cs : List Char) : Option (List Char × List Char) :=
  match cs with
  | e :: cs' =>
    if e = 'e' || e = 'E' then
      let (sign, cs') := match cs' with
        | '+' :: r => (['+'], r)
        | '-' :: r => (['-'], r)
        | r => ([], r)
      match takeDigits cs' with
      | ([], _) => none
      | (ds, rest) => some (e :: (sign ++ ds), rest)
    else some ([], cs)
  | [] => some ([], [])

def readNumber (cs : List Char) : Option (String × List Char) := do
  let (sign, cs) := match cs with
    | '-' :: r => (['-'], r)
    | r => ([], r)
  let (whole, cs) ← readInteger cs
  let (fraction, cs) ← readFraction cs
  let (exponent, cs) ← readExponent cs
  return (String.ofList (sign ++ whole ++ fraction ++ exponent), cs)

/-- What a list of members amounts to when one of the names may be unreadable. -/
def assemble (members : List (Option String × Json)) : Json :=
  if members.all (·.1.isSome) then
    object (members.filterMap fun (name, v) => name.map fun name => (name, v))
  else unreadable

mutual

/-- Reads one value after blanks. Every call of the group gives up one unit of fuel and reads at
least one character of a value, so a fuel beyond the length of the text is never used up. -/
def readValue : Nat → List Char → Option (Json × List Char)
  | 0, _ => none
  | fuel + 1, cs =>
    match skipSpace cs with
    | 'n' :: 'u' :: 'l' :: 'l' :: rest => some (null, rest)
    | 't' :: 'r' :: 'u' :: 'e' :: rest => some (bool true, rest)
    | 'f' :: 'a' :: 'l' :: 's' :: 'e' :: rest => some (bool false, rest)
    | '"' :: rest => do
      let (units, rest) ← readUnits rest
      return (match joinUnits units with
        | some text => string (String.ofList text)
        | none => unreadable, rest)
    | '[' :: rest =>
      match skipSpace rest with
      | ']' :: rest => some (array [], rest)
      | rest => do
        let (items, rest) ← readItems fuel rest
        return (array items, rest)
    | '\x7b' :: rest =>
      match skipSpace rest with
      | '\x7d' :: rest => some (object [], rest)
      | rest => do
        let (members, rest) ← readMembers fuel rest
        return (assemble members, rest)
    | cs => do
      let (digits, rest) ← readNumber cs
      return (number digits, rest)

def readItems : Nat → List Char → Option (List Json × List Char)
  | 0, _ => none
  | fuel + 1, cs => do
    let (v, rest) ← readValue fuel cs
    match skipSpace rest with
    | ']' :: rest => return ([v], rest)
    | ',' :: rest =>
      let (vs, rest) ← readItems fuel rest
      return (v :: vs, rest)
    | _ => none

def readMembers : Nat → List Char → Option (List (Option String × Json) × List Char)
  | 0, _ => none
  | fuel + 1, cs => do
    match skipSpace cs with
    | '"' :: rest =>
      let (units, rest) ← readUnits rest
      let name := (joinUnits units).map String.ofList
      match skipSpace rest with
      | ':' :: rest =>
        let (v, rest) ← readValue fuel rest
        match skipSpace rest with
        | '\x7d' :: rest => return ([(name, v)], rest)
        | ',' :: rest =>
          let (ms, rest) ← readMembers fuel rest
          return ((name, v) :: ms, rest)
        | _ => none
      | _ => none
    | _ => none

end

def parse? (text : String) : Option Json :=
  let cs := text.toList
  match readValue (2 * cs.length + 2) cs with
  | some (v, rest) => if (skipSpace rest).isEmpty then some v else none
  | none => none

end Json

end GraphDoc
