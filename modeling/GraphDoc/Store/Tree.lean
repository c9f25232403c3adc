import GraphDoc.Store.Basic

/-!
# Value trees and selection trees

`Store.addValue` spreads a value over rows and `Store.value` reads it back. `Store.selectionTree`
gives the selections of a document as a tree, with their arguments and directives.
-/

set_option autoImplicit false

namespace GraphDoc

namespace Store

/-- The expected type of a child: the item type in a list, the type of the field in an object. -/
def expectedChild (schema : Schema) (expected? : Option TypeRef) (name? : Option String) :
    Option TypeRef :=
  match name?, expected? with
  | _, none => none
  | none, some parent => some parent.item
  | some field, some parent => schema.fieldType? (Schema.idOf parent.name field)

mutual

/-- Adds a value with all that it contains. All its rows have one owner and one position. -/
def addValue (s : Store) (owner? : Option Int) (p : Position) (expected? : Option TypeRef) :
    Value → Store × Int
  | .node kind raw children =>
    let (s, id) := s.addValueRow ⟨kind, raw, expected?, owner?, p⟩
    (s.addChildren owner? p expected? id children, id)

def addChildren (s : Store) (owner? : Option Int) (p : Position) (expected? : Option TypeRef)
    (parent : Int) : List (Option String × Value) → Store
  | [] => s
  | (name?, v) :: rest =>
    let (s, child) := s.addValue owner? p (expectedChild s.schema expected? name?) v
    let (s, _) := s.addValueLink ⟨parent, child, name?, p⟩
    s.addChildren owner? p expected? parent rest

end

def linksOf (s : Store) (parent : Int) : List (Int × ValueLink) :=
  s.valueLinks.entries.filter (·.2.parent = parent)

def valueWithin (s : Store) : Nat → Int → Except Failure Value
  | 0, id => .error (.missingValue id)
  | depth + 1, id =>
    match s.values.get? id with
    | none => .error (.missingValue id)
    | some row => do
      let children ← (s.linksOf id).mapM fun link => do
        return (link.2.name?, ← s.valueWithin depth link.2.value)
      return .node row.kind row.raw children

def value (s : Store) (id : Int) : Except Failure Value := s.valueWithin (s.values.size + 1) id

end Store

structure DirectiveNode where
  name : String
  arguments : List (String × Value)
deriving Inhabited

inductive SelectionNode where
  | node (id : Int) (row : SelectionRow) (arguments : List (String × Value))
      (directives : List DirectiveNode) (children : List SelectionNode)
deriving Inhabited

namespace SelectionNode

def id : SelectionNode → Int
  | node id _ _ _ _ => id

def row : SelectionNode → SelectionRow
  | node _ row _ _ _ => row

def arguments : SelectionNode → List (String × Value)
  | node _ _ arguments _ _ => arguments

def directives : SelectionNode → List DirectiveNode
  | node _ _ _ directives _ => directives

def children : SelectionNode → List SelectionNode
  | node _ _ _ _ children => children

def responseName (n : SelectionNode) : String := n.row.label?.getD n.row.name

end SelectionNode

namespace Store

def argumentRows (s : Store) (selection : Int) : List (Int × FieldArgument) :=
  s.fieldArguments.entries.filter (·.2.selection = selection)

def argumentValues (s : Store) (selection : Int) : Except Failure (List (String × Value)) :=
  (s.argumentRows selection).mapM fun a => do return (a.2.name, ← s.value a.2.value)

def directiveArgumentValues (s : Store) (site : Site) (use : Int) :
    Except Failure (List (String × Value)) :=
  ((s.directives site).argumentsOf use).mapM fun a => do return (a.2.name, ← s.value a.2.value)

def directiveNodes (s : Store) (site : Site) (owner : Int) : Except Failure (List DirectiveNode) :=
  ((s.directives site).usesOf owner).mapM fun use => do
    return ⟨use.2.name, ← s.directiveArgumentValues site use.1⟩

def placed (s : Store) (document : Int) : List (Placement × SelectionRow) :=
  let here := s.placements.rows.filter (·.document = document)
  (sortBy (fun a b => decide (a.index ≤ b.index)) here).filterMap fun p =>
    (s.selections.get? p.child).map fun row => (p, row)

def level (s : Store) (placed : List (Placement × SelectionRow)) :
    Nat → Option Int → Except Failure (List SelectionNode)
  | 0, _ => .error .tooDeep
  | depth + 1, parent? =>
    (placed.filter (·.1.parent? = parent?)).mapM fun (p, row) => do
      let arguments ← s.argumentValues p.child
      let directives ← s.directiveNodes .selection p.child
      let children ← s.level placed depth (some p.child)
      return .node p.child row arguments directives children

def selectionTree (s : Store) (document : Int) : Except Failure (List SelectionNode) :=
  s.level (s.placed document) (Failure.depthLimit + 1) none

/-! ## Looking up -/

def findDocument (s : Store) (name : String) (kind : DocumentKind) : Option (Int × DocumentRow) :=
  s.documents.entries.find? fun d => d.2.name == name && d.2.kind = kind

def variablesOf (s : Store) (document : Int) : List (Int × VariableRow) :=
  s.declarations.entries.filter (·.2.document = document)

def childField (s : Store) (document parent : Int) (field : String) : Option Int :=
  ((s.placed document).find? fun (p, row) =>
    p.parent? = some parent && row.kind = .field && row.name == field).map (·.1.child)

end Store

end GraphDoc
