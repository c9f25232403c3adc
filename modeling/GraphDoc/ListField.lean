import GraphDoc.Framework
import GraphDoc.Number.Whole
import GraphDoc.Store.Tree

/-!
# List fields

A field tagged `@list` or `@paginate` is used as a list. It returns either a list of records or a
connection, whose records are selected as `edges { node }`. Discovery records the shape of each such
field and reports those that have none, and names that are used twice.
-/

set_option autoImplicit false

namespace GraphDoc

namespace ListField

/-- The arguments that carry a page size, in the order in which they are looked for. -/
def pageSizeArguments : List String := ["first", "last", "limit"]

structure Tagged where
  selection : Int
  document : Int
  position : Position
deriving DecidableEq, Inhabited

/-- What becomes of a tagged field; a field that the schema does not know is left to validation. -/
inductive Outcome where
  | unknown
  | problem (d : Diagnostic)
  | found (row : ListRow) (location : Location)
deriving Inhabited

def connectionShape? (schema : Schema) (connection : String) : Option (String × String) := do
  let edges ← schema.fieldType? (Schema.idOf connection "edges")
  let node ← schema.fieldType? (Schema.idOf edges.name "node")
  return (edges.name, node.name)

def rawArgument? (d? : Option DirectiveNode) (name : String) : Option String :=
  d?.bind fun d => (d.arguments.lookup name).map (·.raw)

end ListField

namespace Store

open ListField

def isListTag (name : String) : Bool :=
  name == Framework.listTag || name == Framework.paginateTag

def taggedFields (s : Store) : List Tagged :=
  let found := s.placements.rows.filterMap fun p =>
    match s.selections.get? p.child with
    | some row =>
      if row.kind = .field && (s.directives .selection).uses.rows.any fun u =>
          u.owner = p.child && isListTag u.name then some ⟨p.child, p.document, p.position⟩
      else none
    | none => none
  let le := fun (a b : Tagged) =>
    a.document < b.document || (a.document = b.document && a.selection ≤ b.selection)
  sortBy (fun a b => le a b) (distinct found)

/-- The page size that an argument gives: a literal, or the default of a variable. -/
def sizeOf (s : Store) (document : Int) (v : Value) : Except Failure (Option Int) := do
  match v.kind with
  | .int => return Whole.signed? v.raw.toList
  | .var =>
    match ((s.variablesOf document).find? (·.2.name == v.raw)).bind (·.2.default?) with
    | none => return none
    | some id =>
      let default ← s.value id
      return if default.kind = .int then Whole.signed? default.raw.toList else none
  | _ => return none

def pageSize (s : Store) (document selection : Int) : Except Failure (Option Int) := do
  let arguments ← s.argumentValues selection
  match pageSizeArguments.findSome? (fun name => arguments.lookup name) with
  | some v => s.sizeOf document v
  | none => return none

/-- The node type, edge type, connection type and node of a list, or what is wrong with it. -/
def listShape (s : Store) (t : Tagged) (name : String) (type : TypeRef) :
    Except String (String × Option String × Option String × Int) := do
  if type.isList then
    if ((s.schema.typeKind? type.name).map TypeKind.isComposite).getD false then
      return (type.name, none, none, t.selection)
    else throw (name ++ " must return a list of objects to be used as a list")
  else
    let some (edge, node) := connectionShape? s.schema type.name
      | throw (name ++ " must return a list or a connection to be used as a list")
    let node? := (s.childField t.document t.selection "edges").bind fun edges =>
      s.childField t.document edges "node"
    let some id := node?
      | throw ("The connection " ++ name ++
          " must select edges \x7b node \x7d to be used as a list")
    return (node, some edge, some type.name, id)

def listOutcome (s : Store) (config : Config) (t : Tagged) : Except Failure Outcome := do
  match s.selections.get? t.selection, s.documents.get? t.document with
  | some row, some document =>
    let location ← s.location document.source t.position
    let some field := row.type?.bind s.schema.fields.get? | return .unknown
    let directives ← s.directiveNodes .selection t.selection
    let list? := directives.find? (·.name == Framework.listTag)
    let paginate? := directives.find? (·.name == Framework.paginateTag)
    let name := ((rawArgument? list? Framework.nameArgument).orElse fun _ =>
      rawArgument? paginate? Framework.nameArgument).getD ""
    let mode := ((rawArgument? paginate? Framework.modeArgument).bind PaginateMode.ofText?).getD
      config.defaultPaginateMode
    match s.listShape t row.name field.type with
    | .error message => return .problem (.validation message location)
    | .ok (nodeType, edgeType?, connectionType?, node) =>
      let pageSize? ← s.pageSize t.document t.selection
      return .found {
        name, nodeType, edgeType?, connectionType?, node, pageSize?, mode
        source := document.source
        document := t.document
        connection := !field.type.isList
        listField := t.selection
        paginate := .unpaged
        embedded := document.kind = .fragment
        targetType := field.parent
        supportsForward := false
        supportsBackward := false
        cursorType? := none } location
  | _, _ => return .unknown

def usedNames (outcomes : List Outcome) : NameMap (List Location) :=
  let uses := outcomes.filterMap fun
    | .found row location => if row.name.isEmpty then none else some (row.name, location)
    | _ => none
  uses.foldl (fun m u => NameMap.alter u.1 (fun ls => ls.getD [] ++ [u.2]) m) []

def repeatedNames (outcomes : List Outcome) : Diagnostics :=
  (usedNames outcomes).filterMap fun (name, locations) =>
    if locations.length > 1 then
      some ⟨.validation, "List names must be unique; " ++ name ++ " is used " ++
        toString locations.length ++ " times", locations⟩
    else none

def discoverLists (config : Config) (s : Store) : Except Failure (Store × Diagnostics) := do
  let outcomes ← s.taggedFields.mapM (s.listOutcome config)
  let problems := outcomes.filterMap fun
    | .problem d => some d
    | _ => none
  let rows := outcomes.filterMap fun
    | .found row _ => some row
    | _ => none
  return ({ s with lists := rows.foldl Table.push s.lists }, problems ++ repeatedNames outcomes)

end Store

end GraphDoc
