import GraphDoc.Pagination
import GraphDoc.Rule.Basic

/-!
# List rules

How paginated fields page, where they may stand, and which spreads of list operations have to say
which list they mean.
-/

set_option autoImplicit false

namespace GraphDoc.Rule

open Framework

structure Paging where
  direction : PageDirection
  supportsForward : Bool
  supportsBackward : Bool
  cursorType? : Option String

def declaredArguments (s : Store) (l : ListRow) : List (String × String) :=
  match (s.selections.get? l.listField).bind (·.type?) with
  | none => []
  | some id =>
    s.schema.arguments.rows.filterMap fun (_, a) =>
      if a.field == id then some (a.name, a.type.name) else none

/-- A connection pages forward with `first` and `after` and backward with `last` and `before`. -/
def connectionPaging (mode : PaginateMode) (declared : List (String × String))
    (applied : List String) : Except String Paging := do
  let declares := fun (name : String) => (declared.lookup name).isSome
  let forward := declares "first" && declares "after"
  let backward := declares "last" && declares "before"
  let cursor? := (declared.lookup "after").orElse fun _ => declared.lookup "before"
  if !forward && !backward then
    throw "A paginated connection must accept first/after or last/before"
  let first := applied.contains "first"
  let last := applied.contains "last"
  if first && last && mode ≠ .singlePage then
    throw "A paginated field can't pass both first and last"
  if first then return ⟨.forward, forward, backward, cursor?⟩
  if last then return ⟨.backward, forward, backward, cursor?⟩
  throw "A paginated connection must pass first or last"

/-- A plain list pages with `limit` and `offset`. -/
def offsetPaging (declared : List (String × String)) (applied : List String) :
    Except String Paging := do
  let declares := fun (name : String) => (declared.lookup name).isSome
  if !declares "limit" || !declares "offset" then
    throw "A paginated list must accept limit and offset"
  if !applied.contains "limit" then throw "A paginated list must pass limit"
  return ⟨.forward, true, false, none⟩

def paging (s : Store) (l : ListRow) (applied : List String) : Except String Paging := do
  if s.isUnderList l.document l.listField then throw "@paginate can't be used inside a list"
  let declared := declaredArguments s l
  if l.connection then connectionPaging l.mode declared applied
  else offsetPaging declared applied

def record (p : Paging) (l : ListRow) : ListRow :=
  { l with
    paginate := p.direction
    supportsForward := p.supportsForward
    supportsBackward := p.supportsBackward
    cursorType? := p.cursorType? }

def checkPaging (outcome : Store × Diagnostics) (entry : Int × ListRow) :
    Except Failure (Store × Diagnostics) := do
  let (s, found) := outcome
  let (id, l) := entry
  if !s.hasDirective l.listField paginateTag then return outcome
  let location ← s.location l.source (s.listPosition l)
  let applied ← s.argumentValues l.listField
  match paging s l (applied.map (·.1)) with
  | .ok p => return ({ s with lists := s.lists.modify id (record p) }, found)
  | .error message => return (s, found ++ [.validation message location])

def paginateArguments : Rule := ⟨"paginate arguments", fun _ s =>
  s.lists.entries.foldlM checkPaging (s, [])⟩

/-- One `@paginate` per document. -/
def singlePaginate : Rule := .reading "single paginate" fun _ s => do
  let found := (s.directives .selection).uses.rows.flatMap fun d =>
    if d.name == paginateTag then (s.uses.filter (·.id = d.owner)).map fun u => (u, d.position)
    else []
  let documents := sortBy (fun a b => decide (a ≤ b)) (distinct (found.map (·.1.documentId)))
  let groups := documents.map fun id => found.filter (·.1.documentId = id)
  (groups.filter (·.length > 1)).mapM fun group => do
    return ⟨.validation, "A document can only contain one @paginate",
      ← group.mapM fun (u, p) => s.location u.document.source p⟩

def isRefetchable (s : Store) (condition? : Option String) : Bool :=
  match condition? with
  | none => false
  | some type =>
    s.schema.members.contains ("Node", type) ||
    ((NameMap.get? type s.typeConfigs).bind (·.resolveQuery)).any (fun q => !q.isEmpty) ||
    ((s.schema.types.get? type).bind (·.operation?)) = some .query

/-- A paginated fragment must be refetchable. Fragments come in the order of their tags. -/
def paginateTypeCondition : Rule := .reading "paginate type condition" fun _ s => do
  let tags := (s.directives .selection).uses.rows.filter (·.name == paginateTag)
  let documents := (tags.flatMap fun d => s.uses.filter (·.id = d.owner)).map (·.document)
  let problems := documents.filter fun d => d.kind = .fragment && !isRefetchable s d.condition?
  let spots := distinct (problems.map fun d => (d.condition?, d.source, d.position))
  spots.mapM fun (condition?, source, position) => do
    return .validation ("A paginated fragment must be on a type that implements Node or has a " ++
      "resolve query, not " ++ condition?.getD "") (← s.location source position)

def isNested (s : Store) (name : String) : Bool :=
  s.lists.rows.any fun l =>
    l.name == name && !l.name.isEmpty && (l.embedded || s.isUnderList l.document l.listField)

def updatedList? (fragment : String) : Option String :=
  operationEndings.findSome? fun ending => Text.stripEnding? ending fragment

/-- Operations on nested lists must say which list they mean. -/
def parentId : Rule := .reading "parent id" fun config s =>
  if config.defaultListTarget = .all then return []
  else
    let spreads := Store.onePerSpot (sortBy (fun a b => decide (a.id ≤ b.id)) s.spreadUses)
    s.reportEach spreads fun u =>
      let fragment := u.selection.name
      if (updatedList? fragment).any (isNested s) && !s.hasDirective u.id parentIdTag &&
          !s.hasDirective u.id allListsTag then
        some (fragment ++ " targets a nested list; add @" ++ parentIdTag ++ " or @" ++ allListsTag)
      else none

/-- `@list` and `@paginate` can't share a field. -/
def paginateWithList : Rule := .reading "paginate with list" fun _ s =>
  let both := s.uses.filter fun u =>
    s.hasDirective u.id listTag && s.hasDirective u.id paginateTag
  s.reportEach (Store.onePerSpot (sortBy (fun a b => decide (a.id ≤ b.id)) both)) fun _ =>
    some ("@" ++ listTag ++ " and @" ++ paginateTag ++ " can't be used on the same field")

end GraphDoc.Rule
