import GraphDoc.Json
import GraphDoc.Number.Whole

/-!
# Project configuration

What a project sets, with the defaults for what it leaves out, and its reading from JSON. A record
is written as an object, whose members may come in any order and of which unknown ones are ignored,
or as an array of its first fields in order.
-/

set_option autoImplicit false

namespace GraphDoc

inductive PaginateMode where
  | infinite | singlePage
deriving DecidableEq, Inhabited

namespace PaginateMode

def text : PaginateMode → String
  | infinite => "Infinite"
  | singlePage => "SinglePage"

def ofText? (s : String) : Option PaginateMode := [infinite, singlePage].find? (·.text == s)

end PaginateMode

inductive ListTarget where
  | all | parent
deriving DecidableEq, Inhabited

namespace ListTarget

def text : ListTarget → String
  | all => "all"
  | parent => "parent"

/-- Every word but `all` means the lists of the parent. -/
def ofText (s : String) : ListTarget := if s == "all" then all else parent

end ListTarget

structure TypeConfig where
  keys : Option (List String) := none
  resolveQuery : Option String := none
deriving DecidableEq, Inhabited

structure Config where
  /-- Runtime scalars, each with the scalar that it is sent as. -/
  runtimeScalars : NameMap String := []
  defaultPaginateMode : PaginateMode := .infinite
  defaultListTarget : ListTarget := .parent
  suppressPaginationDeduplication : Bool := false
  defaultKeys : List String := ["id"]
  types : NameMap TypeConfig := []
  workers : Option Nat := none
deriving DecidableEq, Inhabited

namespace Config

def keys (c : Config) (typeName : String) : List String :=
  ((NameMap.get? typeName c.types).bind (·.keys)).getD c.defaultKeys

/-- The number of workers that the project asks for; at least one works. -/
def workerCount? (c : Config) : Option Nat := c.workers.map (max 1)

/-! ## Reading -/

/-- The value of a field, which may be absent but is not given twice. -/
def memberOnce (name : String) (members : List (String × Json)) : Option (Option Json) :=
  match members.filter (·.1 == name) with
  | [] => some none
  | [(_, v)] => some (some v)
  | _ => none

def readFields (names : List String) : Json → Option (List (Option Json))
  | .object members => names.mapM fun name => memberOnce name members
  | .array items =>
    if items.length ≤ names.length then
      some (items.map some ++ List.replicate (names.length - items.length) none)
    else none
  | _ => none

def readText : Json → Option String
  | .string text => some text
  | _ => none

def readFlag : Json → Option Bool
  | .bool b => some b
  | _ => none

def readTexts : Json → Option (List String)
  | .array items => items.mapM readText
  | _ => none

/-- A word of an enumeration: the word itself, or an object that maps it to null. -/
def readWord : Json → Option String
  | .string word => some word
  | .object [(word, .null)] => some word
  | _ => none

def readMap {α : Type} (read : Json → Option α) : Json → Option (NameMap α)
  | .object members => do
    let pairs ← members.mapM fun (name, v) => do return (name, ← read v)
    return NameMap.ofPairs pairs
  | _ => none

def readMode (v : Json) : Option PaginateMode := do
  match PaginateMode.ofText? (← readWord v) with
  | some mode => return mode
  | none => none

def readTarget (v : Json) : Option ListTarget := do return ListTarget.ofText (← readWord v)

/-- Null stands for an absent value. -/
def readOptional {α : Type} (read : Json → Option α) : Json → Option (Option α)
  | .null => some none
  | v => do return some (← read v)

def readCount (v : Json) : Option Nat :=
  match v.natural? with
  | some n => if Whole.fitsUnsigned n then some n else none
  | none => none

def orDefault {α : Type} (read : Json → Option α) (fallback : α) :
    Option Json → Option α
  | none => some fallback
  | some v => read v

def readType (v : Json) : Option TypeConfig := do
  match ← readFields ["keys", "resolveQuery"] v with
  | [keys, resolveQuery] =>
    return {
      keys := ← orDefault (readOptional readTexts) none keys
      resolveQuery := ← orDefault (readOptional readText) none resolveQuery }
  | _ => none

def fieldNames : List String :=
  ["runtimeScalars", "defaultPaginateMode", "defaultListTarget",
    "suppressPaginationDeduplication", "defaultKeys", "types", "workers"]

def ofJson (v : Json) : Option Config := do
  match ← readFields fieldNames v with
  | [scalars, mode, target, suppress, keys, types, workers] =>
    return {
      runtimeScalars := ← orDefault (readMap readText) [] scalars
      defaultPaginateMode := ← orDefault readMode .infinite mode
      defaultListTarget := ← orDefault readTarget .parent target
      suppressPaginationDeduplication := ← orDefault readFlag false suppress
      defaultKeys := ← orDefault readTexts ["id"] keys
      types := ← orDefault (readMap readType) [] types
      workers := ← orDefault (readOptional readCount) none workers }
  | _ => none

def ofText? (text : String) : Option Config := do
  let v ← Json.parse? text
  ofJson v

def namesText (names : List String) : String := (Json.array (names.map Json.string)).render

end Config

end GraphDoc
