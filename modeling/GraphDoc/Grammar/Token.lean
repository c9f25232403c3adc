import GraphDoc.Diagnostic
import GraphDoc.Json
import GraphDoc.Number.Binary64
import GraphDoc.Number.Whole
import GraphDoc.Text

/-!
# Tokens

The words of documents and schemas. Numbers and strings carry what they denote: the decoders of
this module check the spelling of a number, undo the escapes of a string and strip the common
indentation of a block string.
-/

set_option autoImplicit false

namespace GraphDoc.Grammar

inductive Punct where
  | openParen | closeParen | openBracket | closeBracket | openBrace | closeBrace
  | bang | dollar | colon | equals | atSign | pipe | ampersand | dots
deriving DecidableEq, Inhabited

/-- The last token of a text is `endOfText`, or `unreadable` where reading stopped. -/
inductive Token where
  | punct (p : Punct)
  | name (text : String)
  | int (value : Int)
  | float (value : Binary64)
  | string (text : String)
  | endOfText
  | unreadable
deriving DecidableEq, Inhabited

structure Lexeme where
  token : Token
  position : Position
deriving DecidableEq, Inhabited

def punct? : Char → Option Punct
  | '(' => some .openParen
  | ')' => some .closeParen
  | '[' => some .openBracket
  | ']' => some .closeBracket
  | '\x7b' => some .openBrace
  | '\x7d' => some .closeBrace
  | '!' => some .bang
  | '$' => some .dollar
  | ':' => some .colon
  | '=' => some .equals
  | '@' => some .atSign
  | '|' => some .pipe
  | '&' => some .ampersand
  | _ => none

def Punct.isOpening : Punct → Bool
  | .openParen | .openBracket | .openBrace => true
  | _ => false

def Punct.isClosing : Punct → Bool
  | .closeParen | .closeBracket | .closeBrace => true
  | _ => false

def isNameStart (c : Char) : Bool := c.isAlpha || c = '_'

def isNameChar (c : Char) : Bool := c.isAlphanum || c = '_'

/-! ## Numbers -/

def isNumberStart (c : Char) : Bool := c = '-' || c.isDigit

/-- A number runs up to a blank, a comment or a punctuator other than a dot. -/
def endsNumber (c : Char) : Bool :=
  c = ' ' || c = '\n' || c = '\r' || c = '\t' || c = ',' || c = '#' || (punct? c).isSome

def splitAtLast? (p : Char → Bool) (cs : List Char) : Option (List Char × List Char) :=
  match cs.reverse.dropWhile (fun c => !p c) with
  | [] => none
  | _ :: front => some (front.reverse, (cs.reverse.takeWhile (fun c => !p c)).reverse)

/-- A sign and digits without a leading zero. -/
def whole? (cs : List Char) : Option (Bool × Nat) :=
  let (negative, ds) := match cs with
    | '-' :: ds => (true, ds)
    | ds => (false, ds)
  match ds with
  | [] => none
  | ['0'] => some (negative, 0)
  | '0' :: _ => none
  | ds => if ds.all Char.isDigit then some (negative, Whole.ofDigits ds) else none

/-- Digits after a sign, or digits of which the first is neither 0 nor 9. -/
def exponent? : List Char → Option Int
  | '+' :: ds => if Whole.isDigits ds then some (Whole.ofDigits ds) else none
  | '-' :: ds => if Whole.isDigits ds then some (-(Whole.ofDigits ds : Int)) else none
  | d :: ds =>
    if '1' ≤ d && d ≤ '8' && ds.all Char.isDigit then some (Whole.ofDigits (d :: ds)) else none
  | [] => none

def fraction? (ds : List Char) : Option (List Char) :=
  if Whole.isDigits ds then some ds else none

/-- The number `front.fraction` times a power of ten. -/
def scaled? (front fraction : List Char) (power : Int) : Option Token := do
  let (negative, n) ← whole? front
  let coefficient := n * Nat.pow 10 fraction.length + Whole.ofDigits fraction
  return .float (.ofDecimal negative coefficient (power - fraction.length))

/-- A text with a dot or an exponent is a float, and the last of each counts. -/
def number? (cs : List Char) : Option Token :=
  match splitAtLast? (fun c => c = 'e' || c = 'E') cs with
  | some (front, power) => do
    let power ← exponent? power
    match splitAtLast? (· = '.') front with
    | some (front, fraction) => scaled? front (← fraction? fraction) power
    | none => scaled? front [] power
  | none =>
    match splitAtLast? (· = '.') cs with
    | some (front, fraction) => do scaled? front (← fraction? fraction) 0
    | none => do
      let (negative, n) ← whole? cs
      let value : Int := if negative then -(n : Int) else n
      if Whole.fitsSigned value then some (.int value) else none

/-! ## Strings -/

/-- Four characters after `\u`; a plus sign may stand for the first digit. The result is a Unicode
scalar value. -/
def escapedChar? (a b c d : Char) : Option Char := do
  let code ← Json.hexQuad? (if a = '+' then '0' else a) b c d
  if 0xD800 ≤ code && code < 0xE000 then none else some (Char.ofNat code)

/-- Undoes the escapes of a string. The escape `\b` stands for U+0010. -/
def unescape : List Char → Option (List Char)
  | [] => some []
  | '\\' :: 'u' :: a :: b :: c :: d :: cs => do
    let found ← escapedChar? a b c d
    return found :: (← unescape cs)
  | '\\' :: e :: cs => do
    let found ← match e with
      | '"' => some '"'
      | '\\' => some '\\'
      | '/' => some '/'
      | 'b' => some '\x10'
      | 'f' => some '\x0c'
      | 'n' => some '\n'
      | 'r' => some '\r'
      | 't' => some '\t'
      | _ => none
    return found :: (← unescape cs)
  | c :: cs => if c = '\\' then none else (unescape cs).map (c :: ·)

/-! ## Block strings -/

def byteLength (cs : List Char) : Nat := cs.foldl (fun n c => n + c.utf8Size) 0

def dropBytes : List Char → Nat → List Char
  | [], _ => []
  | c :: cs, n => if n = 0 then c :: cs else dropBytes cs (n - c.utf8Size)

def isBlankLine (line : List Char) : Bool := line.all Text.isBlank

def indent (line : List Char) : Nat := byteLength (line.takeWhile Text.isBlank)

/-- The least indentation among the lines after the first that are not blank. -/
def commonIndent? (lines : List (List Char)) : Option Nat :=
  ((lines.drop 1).filter (!isBlankLine ·)).map indent |>.min?

def unindent (common : Option Nat) (line : List Char) : List Char :=
  match common with
  | some n => if n ≤ byteLength line then dropBytes line n else line
  | none => line

/-- A backslash before three quotes only keeps them from ending the string. -/
def unescapeQuotes : List Char → List Char
  | '\\' :: '"' :: '"' :: '"' :: cs => '"' :: '"' :: '"' :: unescapeQuotes cs
  | c :: cs => c :: unescapeQuotes cs
  | [] => []

def dropBlankLines (lines : List (List Char)) : List (List Char) :=
  ((lines.dropWhile isBlankLine).reverse.dropWhile isBlankLine).reverse

/-- The text of a block string: without the common indentation of the lines after the first and
without the blank lines at both ends. -/
def blockText (cs : List Char) : List Char :=
  let lines := Text.lines cs
  let common := commonIndent? lines
  let shifted := match lines with
    | [] => []
    | first :: rest => first :: rest.map (unindent common)
  let kept := (dropBlankLines shifted).map unescapeQuotes
  ['\n'].intercalate kept

end GraphDoc.Grammar
