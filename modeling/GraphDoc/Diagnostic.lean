import GraphDoc.Order

/-!
# Diagnostics

A diagnostic is a problem in a project file. Its locations are absolute: where the document starts
in its file plus the position inside the document.
-/

set_option autoImplicit false

namespace GraphDoc

/-- A position inside a document, counted from 1. -/
structure Position where
  line : Int
  column : Int
deriving DecidableEq, Inhabited

structure Location where
  filepath : String
  line : UInt32
  column : UInt32
deriving DecidableEq, Inhabited

namespace Location

/-- Moves a position by the place where its document starts. Coordinates are 32-bit, and a negative
one counts as zero. -/
def ofPosition (filepath : String) (offsetLine offsetColumn : UInt32) (p : Position) : Location :=
  ⟨filepath, offsetLine + UInt32.ofNat p.line.toNat, offsetColumn + UInt32.ofNat p.column.toNat⟩

def text (l : Location) : String :=
  l.filepath ++ ":" ++ toString l.line.toNat ++ ":" ++ toString l.column.toNat

def compare (a b : Location) : Ordering :=
  (Ord.compare a.filepath b.filepath).then
    ((Ord.compare a.line b.line).then (Ord.compare a.column b.column))

end Location

inductive Severity where
  | parse | validation | internal
deriving DecidableEq, Inhabited

namespace Severity

def text : Severity → String
  | parse => "parse"
  | validation => "validation"
  | internal => "internal"

def ofText? (s : String) : Option Severity :=
  [parse, validation, internal].find? (·.text == s)

end Severity

structure Diagnostic where
  severity : Severity
  message : String
  locations : List Location
deriving DecidableEq, Inhabited

namespace Diagnostic

def validation (message : String) (location : Location) : Diagnostic :=
  ⟨.validation, message, [location]⟩

/-- One line per location, or one line without any. -/
def text (d : Diagnostic) : String :=
  let line := d.severity.text ++ ": " ++ d.message ++ "\n"
  match d.locations with
  | [] => line
  | locations => String.join (locations.map fun l => l.text ++ ": " ++ line)

/-- Documents with parse or validation problems are not transformed. -/
def isError (d : Diagnostic) : Bool :=
  match d.severity with
  | .internal => false
  | _ => true

def compareLocations : List Location → List Location → Ordering
  | [], [] => .eq
  | [], _ => .lt
  | _, [] => .gt
  | a :: as, b :: bs => (a.compare b).then (compareLocations as bs)

def compare (a b : Diagnostic) : Ordering :=
  (Ord.compare a.severity.text b.severity.text).then
    ((Ord.compare a.message b.message).then (compareLocations a.locations b.locations))

end Diagnostic

/-- Problems in the order in which they were found. -/
abbrev Diagnostics := List Diagnostic

namespace Diagnostics

def hasErrors (ds : Diagnostics) : Bool := ds.any Diagnostic.isError

def text (ds : Diagnostics) : String := String.join (ds.map Diagnostic.text)

def count (severity : Severity) (ds : Diagnostics) : Nat :=
  (ds.filter (·.severity = severity)).length

def sorted (ds : Diagnostics) : Diagnostics := sortBy (fun a b => (a.compare b).isLE) ds

end Diagnostics

end GraphDoc
