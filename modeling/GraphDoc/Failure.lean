import GraphDoc.Diagnostic
import GraphDoc.Number.Whole
import GraphDoc.Text

/-!
# Failures

Why an operation on the store gave up. Each failure is worded as a chain of texts, the outermost
first.
-/

set_option autoImplicit false

namespace GraphDoc

inductive Failure where
  | dangling
  | missingSource (id : Int)
  | missingValue (id : Int)
  | missingDocument (id : Int)
  | unknownDocument (id : Int)
  | tooDeep
  | unreadableSchema (position : Position)
  | cancelled
deriving DecidableEq, Inhabited

namespace Failure

/-- Where reading failed. What the reader expected there, which a full report goes on to say, is not
part of it. -/
def parseErrorText (p : Position) : String :=
  "Parse error at " ++ toString p.line ++ ":" ++ toString p.column

/-- What follows the first occurrence of `pattern`. -/
def after? (pattern : List Char) : List Char → Option (List Char)
  | [] => if pattern.isEmpty then some [] else none
  | c :: cs =>
    if pattern.isPrefixOf (c :: cs) then some ((c :: cs).drop pattern.length)
    else after? pattern cs

def positionIn? (message : String) : Option (Nat × Nat) := do
  let rest ← after? "Parse error at ".toList message.toList
  let line := rest.takeWhile (· ≠ ':')
  match rest.dropWhile (· ≠ ':') with
  | [] => none
  | _ :: tail =>
    let column := tail.takeWhile Char.isDigit
    return (← Whole.unsigned? (Text.trimChars line), ← Whole.unsigned? column)

/-- The deepest nesting of selections that is read. -/
def depthLimit : Nat := 256

def chain : Failure → List String
  | dangling =>
    ["FOREIGN KEY constraint failed", "Error code 787: Foreign key constraint failed"]
  | missingSource id => ["raw document " ++ toString id ++ " does not exist"]
  | missingValue id => ["argument value " ++ toString id ++ " does not exist"]
  | missingDocument id => ["document " ++ toString id ++ " does not exist"]
  | unknownDocument id => ["no document with id " ++ toString id]
  | tooDeep => ["selection tree deeper than " ++ toString depthLimit ++ " levels"]
  | unreadableSchema p =>
    ["Could not parse the schema", "schema parse error: " ++ parseErrorText p]
  | cancelled => ["compile cancelled"]

def message (f : Failure) : String := Text.joinWith ": " f.chain

def headline (f : Failure) : String := f.chain.headD ""

end Failure

end GraphDoc
