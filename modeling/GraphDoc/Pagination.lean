import GraphDoc.Framework
import GraphDoc.Store.Tree

/-!
# Pagination

A paginated field reads its page arguments from variables of its document, so that another page is a
matter of other variables. A literal argument becomes the default of its variable.
-/

set_option autoImplicit false

namespace GraphDoc

namespace ListRow

def pageArguments (l : ListRow) : List (String × String) :=
  let cursor := l.cursorType?.getD "String"
  if l.connection then
    (if l.supportsForward then [("first", "Int"), ("after", cursor)] else []) ++
    (if l.supportsBackward then [("last", "Int"), ("before", cursor)] else [])
  else [("limit", "Int"), ("offset", "Int")]

end ListRow

namespace Store

def listPosition (s : Store) (l : ListRow) : Position :=
  match s.placements.rows.find? fun p => p.child = l.listField && p.document = l.document with
  | some p => p.position
  | none => ⟨0, 0⟩

def passedArgument? (s : Store) (selection : Int) (name : String) : Option (Int × Int × ValueRow) :=
  (s.argumentRows selection).findSome? fun (id, a) =>
    if a.name == name then (s.values.get? a.value).map fun v => (id, a.value, v) else none

def passVariable (s : Store) (l : ListRow) (p : Position) (name : String) (type : TypeRef) :
    Store :=
  let (s, value) := s.addValueRow ⟨.var, name, some type, some l.document, p⟩
  let declared? := ((s.selections.get? l.listField).bind (·.type?)).map (Schema.idOf · name)
  (s.addFieldArgument ⟨l.listField, name, value, declared?, p⟩).1

/-- Declares a variable. One that is declared keeps its type, and its default unless it has none. -/
def declareWithDefault (s : Store) (document : Int) (p : Position) (name : String)
    (type : TypeRef) (default? : Option Int) : Store :=
  match (s.variablesOf document).find? (·.2.name == name) with
  | none => (s.addVariable ⟨document, name, type, default?, p⟩).1
  | some (id, _) =>
    { s with declarations := s.declarations.modify id fun v =>
        { v with default? := v.default?.orElse fun _ => default? } }

def bindPageArgument (l : ListRow) (p : Position) (s : Store) (argument : String × String) :
    Store :=
  let (name, typeName) := argument
  let type : TypeRef := ⟨typeName, ""⟩
  match s.passedArgument? l.listField name with
  | none => (s.passVariable l p name type).declareWithDefault l.document p name type none
  | some (id, value, row) =>
    if row.kind = .var then s
    else
      let s := { s with fieldArguments := s.fieldArguments.erase id }
      (s.passVariable l p name type).declareWithDefault l.document p name type (some value)

/-- Tells the runtime to drop repeated requests that agree in their variables. -/
def addDedupe (s : Store) (document : Int) (p : Position) : Store :=
  let (s, use) := s.addDirective .document ⟨document, Framework.dedupeTag, p⟩
  let (s, value) := s.addValueRow
    ⟨.enum, "Variables", some ⟨"DedupeMatchMode", ""⟩, some document, p⟩
  (s.addDirectiveArgument .document ⟨use, Framework.matchArgument, value, p⟩).1

def wantsDedupe (s : Store) (document : Int) : Bool :=
  match s.documents.get? document with
  | some d => d.kind.isOperation && !(s.directives .document).has document Framework.dedupeTag
  | none => false

def paginateList (config : Config) (s : Store) (l : ListRow) : Store :=
  let p := s.listPosition l
  let s := l.pageArguments.foldl (bindPageArgument l p) s
  if !config.suppressPaginationDeduplication && s.wantsDedupe l.document then
    s.addDedupe l.document p
  else s

def preparePagination (config : Config) (s : Store) : Store × Nat :=
  let lists := s.lists.rows.filter (·.paginate ≠ .unpaged)
  (lists.foldl (paginateList config) s, lists.length)

end Store

end GraphDoc
