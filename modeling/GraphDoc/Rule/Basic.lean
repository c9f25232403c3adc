import GraphDoc.Closure
import GraphDoc.Framework
import GraphDoc.Store.Tree

/-!
# Rules

A rule reads the store and reports what breaks it. Most rules look at selections as they are placed
in documents, so this is what they share.
-/

set_option autoImplicit false

namespace GraphDoc

structure Use where
  id : Int
  selection : SelectionRow
  documentId : Int
  document : DocumentRow
  parent? : Option Int
  position : Position
deriving DecidableEq, Inhabited

def Use.le (a b : Use) : Bool :=
  a.documentId < b.documentId || (a.documentId = b.documentId && a.id ≤ b.id)

namespace Store

def uses (s : Store) : List Use :=
  s.placements.rows.filterMap fun p =>
    match s.selections.get? p.child, s.documents.get? p.document with
    | some row, some d => some ⟨p.child, row, p.document, d, p.parent?, p.position⟩
    | _, _ => none

def hasDirective (s : Store) (selection : Int) (name : String) : Bool :=
  (s.directives .selection).has selection name

def usesWith (s : Store) (directive : String) : List Use :=
  sortBy Use.le (distinct (s.uses.filter fun u => s.hasDirective u.id directive))

/-- One of several uses of a selection at the same spot of a source: the first of the list. -/
def onePerSpot (us : List Use) : List Use :=
  distinctBy (fun u => (u.id, u.document.source, u.position)) us

def spreadUses (s : Store) : List Use := s.uses.filter (·.selection.kind = .fragment)

def useLocation (s : Store) (u : Use) : Except Failure Location :=
  s.location u.document.source u.position

def report (s : Store) (u : Use) (message : String) : Except Failure Diagnostic := do
  return .validation message (← s.useLocation u)

def reportEach (s : Store) (us : List Use) (problem? : Use → Option String) :
    Except Failure Diagnostics :=
  (us.filterMap fun u => (problem? u).map fun message => (u, message)).mapM fun (u, message) =>
    s.report u message

def parentsIn (s : Store) (document selection : Int) : List Int :=
  s.placements.rows.filterMap fun p =>
    if p.document = document && p.child = selection then p.parent? else none

/-- All selections above a selection in a document; no chain of them is longer than there are
placements. -/
def ancestors (s : Store) (document selection : Int) : List Int :=
  closure (s.parentsIn document) s.placements.size (s.parentsIn document selection)

def isUnderList (s : Store) (document selection : Int) : Bool :=
  (s.ancestors document selection).any fun id =>
    (((s.selections.get? id).bind (·.type?)).bind s.schema.fieldType?).any TypeRef.isList

def parentType (type? : Option String) : String :=
  ((type?.bind (Text.splitLast? '.')).map (·.1)).getD ""

end Store

/-- A rule may also record what it learned. -/
structure Rule where
  name : String
  run : Config → Store → Except Failure (Store × Diagnostics)

def Rule.reading (name : String) (check : Config → Store → Except Failure Diagnostics) : Rule :=
  ⟨name, fun config s => do return (s, ← check config s)⟩

end GraphDoc
