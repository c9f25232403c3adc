import GraphDoc.Framework
import GraphDoc.Pagination

/-!
# List operations

Every named list gets three fragments on its node type, with which the runtime updates it after a
mutation: `<name>_insert` and `<name>_toggle` select what the list selects of a record,
`<name>_remove` only what identifies one. The node type gets a `<Type>_delete` directive.
-/

set_option autoImplicit false

namespace GraphDoc.Store

def copiesBelow (placed : List (Placement × SelectionRow)) (target : Int) :
    Nat → Int → Option Int → List Placement
  | 0, _, _ => []
  | depth + 1, parent, targetParent? =>
    (placed.filter (·.1.parent? = some parent)).flatMap fun (p, _) =>
      ⟨targetParent?, p.child, target, p.index, p.position⟩ ::
        copiesBelow placed target depth p.child (some p.child)

def copyBelow (s : Store) (document parent target : Int) : Store :=
  let placed := s.placed document
  let copies := copiesBelow placed target (placed.length + 1) parent none
  { s with placements := copies.foldl Table.push s.placements }

def rootPlacements (s : Store) (document : Int) : List Placement :=
  s.placements.rows.filter fun p => p.document = document && p.parent?.isNone

def nextRootIndex (s : Store) (document : Int) : Int :=
  match (s.rootPlacements document).map (·.index) with
  | [] => 0
  | i :: is => is.foldl max i + 1

def appendFields (document : Int) (typeName : String) (p : Position) (index : Int) (s : Store) :
    List String → Store
  | [] => s
  | field :: rest =>
    let (s, id) := s.addSelection ⟨field, none, .field, some (Schema.idOf typeName field)⟩
    let (s, _) := s.addPlacement ⟨none, id, document, index, p⟩
    appendFields document typeName p (index + 1) s rest

def plainRootFields (s : Store) (document : Int) : List String :=
  (s.rootPlacements document).filterMap fun p =>
    (s.selections.get? p.child).bind fun row =>
      if row.kind = .field && row.label?.isNone then some row.name else none

def identifyingFields (s : Store) (typeName : String) : List String :=
  s.keys typeName ++ [Framework.typenameField]

def addListFragment (s : Store) (l : ListRow) (p : Position) (ending : String) : Store × Int :=
  s.addDocument ⟨l.name ++ ending, l.source, .fragment, some l.nodeType, p⟩

/-- The insert and toggle fragments: the list's own selections, and the identifying fields that are
not among them. -/
def addRecordFragment (l : ListRow) (p : Position) (s : Store) (ending : String) : Store :=
  let (s, id) := s.addListFragment l p ending
  let s := s.copyBelow l.document l.node id
  let selected := s.plainRootFields id
  let missing := (s.identifyingFields l.nodeType).filter (· ∉ selected)
  appendFields id l.nodeType p (s.nextRootIndex id) s missing

def addRemoveFragment (l : ListRow) (p : Position) (s : Store) : Store :=
  let (s, id) := s.addListFragment l p Framework.removeEnding
  appendFields id l.nodeType p (s.nextRootIndex id) s (s.identifyingFields l.nodeType)

def addDeleteDirective (s : Store) (typeName : String) : Store :=
  let name := Framework.deleteDirective typeName
  let about := "Delete the " ++ typeName ++ " with the matching key"
  { s with schema := { s.schema with
      directives := s.schema.directives.add name ⟨false, true, true, some about⟩
      directiveLocations := s.schema.directiveLocations.add (name, "FIELD") () } }

def addListOperations (s : Store) (l : ListRow) : Store :=
  let p := s.listPosition l
  let s := [Framework.insertEnding, Framework.toggleEnding].foldl (addRecordFragment l p) s
  (addRemoveFragment l p s).addDeleteDirective l.nodeType

def generateListOperations (s : Store) : Store × Nat :=
  let lists := s.lists.rows.filter fun l => !l.name.isEmpty
  (lists.foldl addListOperations s, lists.length)

end GraphDoc.Store
