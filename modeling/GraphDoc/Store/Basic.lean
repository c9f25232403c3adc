import GraphDoc.Config
import GraphDoc.Diagnostic
import GraphDoc.Failure
import GraphDoc.Schema.Basic
import GraphDoc.Value

/-!
# The store

A project under compilation: its configuration and schema, the texts it was read from, and the
documents, selections and values taken out of them. A selection is placed in a document by a
placement, so that several documents can share it. Values are rows of their own and refer to their
children by links.

Rows refer to each other by number. A transaction may leave references open while it runs;
`Store.commit` keeps its outcome only if the store is closed at the end.
-/

set_option autoImplicit false

namespace GraphDoc

/-- A text with documents, and where it starts in its file. An inline source holds one component
field, which may come with the prop that it is passed as. -/
structure Source where
  filepath : String
  content : String
  offsetLine : UInt32 := 0
  offsetColumn : UInt32 := 0
  inline : Bool := false
  prop? : Option String := none
deriving DecidableEq, Inhabited

structure DocumentRow where
  name : String
  source : Int
  kind : DocumentKind
  condition? : Option String
  position : Position
deriving DecidableEq, Inhabited

structure VariableRow where
  document : Int
  name : String
  type : TypeRef
  default? : Option Int
  position : Position
deriving DecidableEq, Inhabited

structure DirectiveUse where
  owner : Int
  name : String
  position : Position
deriving DecidableEq, Inhabited

structure DirectiveArgument where
  owner : Int
  name : String
  value : Int
  position : Position
deriving DecidableEq, Inhabited

structure DirectiveTables where
  uses : Table DirectiveUse := {}
  arguments : Table DirectiveArgument := {}
deriving DecidableEq

instance : Inhabited DirectiveTables := ⟨{}⟩

/-- A field, an inline fragment, named by its type condition, or the spread of a fragment, named by
it. The type of a field is `Parent.field`. -/
structure SelectionRow where
  name : String
  label? : Option String
  kind : SelectionKind
  type? : Option String
deriving DecidableEq, Inhabited

structure Placement where
  parent? : Option Int
  child : Int
  document : Int
  index : Int
  position : Position
deriving DecidableEq, Inhabited

/-- An argument of a field; `declared?` is the schema's argument that it fills. -/
structure FieldArgument where
  selection : Int
  name : String
  value : Int
  declared? : Option String
  position : Position
deriving DecidableEq, Inhabited

structure ValueRow where
  kind : ValueKind
  raw : String
  expected? : Option TypeRef
  document? : Option Int
  position : Position
deriving DecidableEq, Inhabited

structure ValueLink where
  parent : Int
  value : Int
  name? : Option String
  position : Position
deriving DecidableEq, Inhabited

inductive PageDirection where
  | unpaged | forward | backward
deriving DecidableEq, Inhabited

namespace PageDirection

def text : PageDirection → String
  | unpaged => ""
  | forward => "forward"
  | backward => "backward"

/-- Every word but the two directions means no paging. -/
def ofText (s : String) : PageDirection :=
  if s == "forward" then forward else if s == "backward" then backward else unpaged

end PageDirection

/-- A field that is used as a list. `node` is the selection whose children are the records. -/
structure ListRow where
  name : String
  nodeType : String
  edgeType? : Option String
  connectionType? : Option String
  source : Int
  document : Int
  connection : Bool
  listField : Int
  paginate : PageDirection
  node : Int
  pageSize? : Option Int
  mode : PaginateMode
  embedded : Bool
  targetType : String
  supportsForward : Bool
  supportsBackward : Bool
  cursorType? : Option String
deriving DecidableEq, Inhabited

/-- A fragment that declares a field of its type condition. -/
structure ComponentField where
  prop : String
  field : String
  type : String
  inline : Bool
deriving DecidableEq, Inhabited

structure Store where
  defaultKeys? : Option (List String) := none
  typeConfigs : NameMap TypeConfig := []
  schema : Schema := {}
  sources : Table Source := {}
  documents : Table DocumentRow := {}
  documentDirectives : DirectiveTables := {}
  declarations : Table VariableRow := {}
  declarationDirectives : DirectiveTables := {}
  selections : Table SelectionRow := {}
  selectionDirectives : DirectiveTables := {}
  placements : Table Placement := {}
  fieldArguments : Table FieldArgument := {}
  values : Table ValueRow := {}
  valueLinks : Table ValueLink := {}
  lists : Table ListRow := {}
  /-- By document; a document declares at most one. -/
  componentFields : Keyed Int ComponentField := {}
deriving DecidableEq

def Store.empty : Store := {}

instance : Inhabited Store := ⟨Store.empty⟩

namespace DirectiveTables

/-- Every directive stands on an owner, and every argument has a directive and a value. -/
def closed (t : DirectiveTables) (isOwner isValue : Int → Bool) : Bool :=
  let full := t.uses.isFull
  t.uses.rows.all (fun u => isOwner u.owner) &&
  t.arguments.rows.all (fun a => t.uses.containsKnowing full a.owner && isValue a.value)

end DirectiveTables

namespace Store

/-- Every row that a row refers to is there, as far as the given predicates tell. -/
def closedUnder (s : Store) (isSource isDocument isDeclaration isSelection isValue : Int → Bool) :
    Bool :=
  s.schema.closed &&
  s.documents.rows.all (fun d => isSource d.source) &&
  s.documentDirectives.closed isDocument isValue &&
  s.declarations.rows.all (fun v => isDocument v.document && v.default?.all isValue) &&
  s.declarationDirectives.closed isDeclaration isValue &&
  s.selectionDirectives.closed isSelection isValue &&
  s.placements.rows.all (fun p =>
    p.parent?.all isSelection && isSelection p.child && isDocument p.document) &&
  s.fieldArguments.rows.all (fun a => isSelection a.selection && isValue a.value) &&
  s.values.rows.all (fun v => v.document?.all isDocument) &&
  s.valueLinks.rows.all (fun l => isValue l.parent && isValue l.value) &&
  s.lists.rows.all (fun l =>
    isSource l.source && isDocument l.document && isSelection l.listField &&
      isSelection l.node) &&
  s.componentFields.rows.all (fun c => isDocument c.1)

def closed (s : Store) : Bool :=
  let sources := s.sources.isFull
  let documents := s.documents.isFull
  let declarations := s.declarations.isFull
  let selections := s.selections.isFull
  let values := s.values.isFull
  s.closedUnder (s.sources.containsKnowing sources) (s.documents.containsKnowing documents)
    (s.declarations.containsKnowing declarations) (s.selections.containsKnowing selections)
    (s.values.containsKnowing values)

theorem closed_eq (s : Store) :
    s.closed = s.closedUnder s.sources.contains s.documents.contains s.declarations.contains
      s.selections.contains s.values.contains := by
  have h : ∀ {α : Type} (t : Table α), t.containsKnowing t.isFull = t.contains :=
    fun t => funext fun id => t.containsKnowing_isFull id
  simp only [closed, h]

def commit {α : Type} (before : Store) (outcome : Except Failure (Store × α)) :
    Store × Except Failure α :=
  match outcome with
  | .error f => (before, .error f)
  | .ok (after, a) => if after.closed then (after, .ok a) else (before, .error .dangling)

def configure (s : Store) (c : Config) : Store :=
  { s with defaultKeys? := some c.defaultKeys, typeConfigs := c.types }

def keys (s : Store) (typeName : String) : List String :=
  ((NameMap.get? typeName s.typeConfigs).bind (·.keys)).getD (s.defaultKeys?.getD ["id"])

def location (s : Store) (source : Int) (p : Position) : Except Failure Location :=
  match s.sources.get? source with
  | some row => .ok (.ofPosition row.filepath row.offsetLine row.offsetColumn p)
  | none => .error (.missingSource source)

/-! ## New rows -/

def addSource (s : Store) (row : Source) : Store × Int :=
  ({ s with sources := s.sources.push row }, s.sources.nextId)

def addDocument (s : Store) (row : DocumentRow) : Store × Int :=
  ({ s with documents := s.documents.push row }, s.documents.nextId)

def addVariable (s : Store) (row : VariableRow) : Store × Int :=
  ({ s with declarations := s.declarations.push row }, s.declarations.nextId)

def addSelection (s : Store) (row : SelectionRow) : Store × Int :=
  ({ s with selections := s.selections.push row }, s.selections.nextId)

def addPlacement (s : Store) (row : Placement) : Store × Int :=
  ({ s with placements := s.placements.push row }, s.placements.nextId)

def addFieldArgument (s : Store) (row : FieldArgument) : Store × Int :=
  ({ s with fieldArguments := s.fieldArguments.push row }, s.fieldArguments.nextId)

def addValueRow (s : Store) (row : ValueRow) : Store × Int :=
  ({ s with values := s.values.push row }, s.values.nextId)

def addValueLink (s : Store) (row : ValueLink) : Store × Int :=
  ({ s with valueLinks := s.valueLinks.push row }, s.valueLinks.nextId)

end Store

namespace DirectiveTables

def usesOf (t : DirectiveTables) (owner : Int) : List (Int × DirectiveUse) :=
  t.uses.entries.filter (·.2.owner = owner)

def argumentsOf (t : DirectiveTables) (use : Int) : List (Int × DirectiveArgument) :=
  t.arguments.entries.filter (·.2.owner = use)

def has (t : DirectiveTables) (owner : Int) (name : String) : Bool :=
  t.uses.rows.any fun u => u.owner = owner && u.name == name

end DirectiveTables

/-- The rows that directives stand on; a declaration is that of a variable. -/
inductive Site where
  | document | declaration | selection
deriving DecidableEq, Inhabited

namespace Store

def directives (s : Store) : Site → DirectiveTables
  | .document => s.documentDirectives
  | .declaration => s.declarationDirectives
  | .selection => s.selectionDirectives

def setDirectives (s : Store) (site : Site) (t : DirectiveTables) : Store :=
  match site with
  | .document => { s with documentDirectives := t }
  | .declaration => { s with declarationDirectives := t }
  | .selection => { s with selectionDirectives := t }

def addDirective (s : Store) (site : Site) (row : DirectiveUse) : Store × Int :=
  let t := s.directives site
  (s.setDirectives site { t with uses := t.uses.push row }, t.uses.nextId)

def addDirectiveArgument (s : Store) (site : Site) (row : DirectiveArgument) : Store × Int :=
  let t := s.directives site
  (s.setDirectives site { t with arguments := t.arguments.push row }, t.arguments.nextId)

end Store

end GraphDoc
