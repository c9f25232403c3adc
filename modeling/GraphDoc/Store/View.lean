import GraphDoc.Store.Tree

/-!
# Views

The contents of a store as tables of plain cells, for inspection. A view is sorted either by row
number or by its cells: nothing first, then numbers by value, then texts.
-/

set_option autoImplicit false

namespace GraphDoc

inductive Cell where
  | nothing
  | number (n : Int)
  | text (s : String)
deriving DecidableEq, Inhabited

namespace Cell

def ofFlag (b : Bool) : Cell := number (if b then 1 else 0)

def ofText? : Option String → Cell
  | none => nothing
  | some s => text s

def toJson : Cell → Json
  | nothing => .null
  | number n => .ofInt n
  | text s => .string s

def compare : Cell → Cell → Ordering
  | nothing, nothing => .eq
  | nothing, _ => .lt
  | _, nothing => .gt
  | number m, number n => Ord.compare m n
  | number _, text _ => .lt
  | text _, number _ => .gt
  | text s, text t => Ord.compare s t

def compareRows : List Cell → List Cell → Ordering
  | [], [] => .eq
  | [], _ => .lt
  | _, [] => .gt
  | a :: as, b :: bs => (a.compare b).then (compareRows as bs)

def sortRows (rows : List (List Cell)) : List (List Cell) :=
  sortBy (fun a b => (compareRows a b).isLE) rows

end Cell

open Cell

structure SchemaView where
  types : List (List Cell)
  fields : List (List Cell)
  arguments : List (List Cell)
  members : List (List Cell)
  enumValues : List (List Cell)
  directives : List (List Cell)
  directiveLocations : List (List Cell)
  directiveArguments : List (List Cell)

namespace Schema

def isInternalType (s : Schema) (name : String) : Bool :=
  (s.types.get? name).any (·.internal)

def isInternalDirective (s : Schema) (name : String) : Bool :=
  (s.directives.get? name).any (·.internal)

def view (s : Schema) (internal : Bool) : SchemaView where
  types := sortRows <| (s.types.rows.filter fun (_, t) => internal || !t.internal).map
    fun (name, t) => [text name, text t.kind.text, ofText? (t.operation?.map (·.text)),
      ofFlag t.builtIn, ofFlag t.internal]
  fields := sortRows <| (s.fields.rows.filter fun (_, f) => internal || !f.internal).map
    fun (id, f) => [text id, text f.type.name, text f.type.modifiers, ofText? f.default?,
      ofText? f.description?, ofFlag f.internal]
  arguments := sortRows <| s.arguments.rows.map fun (id, a) =>
    [text id, text a.field, text a.name, text a.type.name, text a.type.modifiers]
  members := sortRows <| s.members.rows.map fun (pair, _) => [text pair.1, text pair.2]
  enumValues := sortRows <|
    (s.enumValues.rows.filter fun (pair, _) => internal || !s.isInternalType pair.1).map
      fun (pair, _) => [text pair.1, text pair.2]
  directives := sortRows <| (s.directives.rows.filter fun (_, d) => internal || !d.internal).map
    fun (name, d) => [text name, ofFlag d.repeatable, ofFlag d.internal, ofFlag d.visible,
      ofText? d.description?]
  directiveLocations := sortRows <|
    (s.directiveLocations.rows.filter fun (pair, _) =>
      internal || !s.isInternalDirective pair.1).map fun (pair, _) => [text pair.1, text pair.2]
  directiveArguments := sortRows <|
    (s.directiveArguments.rows.filter fun (pair, _) =>
      internal || !s.isInternalDirective pair.1).map fun (pair, a) =>
        [text pair.1, text pair.2, text a.type.name, text a.type.modifiers, ofText? a.default?]

end Schema

/-- A variable with its default value and the markers on it: directive, argument, kind and text of
the argument's value. -/
structure VariableView where
  row : VariableRow
  default? : Option Value
  markers : List (String × String × ValueKind × String)

namespace Store

def configView (s : Store) : List (List Cell) :=
  (s.defaultKeys?.toList.map fun keys => [text "", text (Config.namesText keys), nothing]) ++
  s.typeConfigs.map fun (name, c) =>
    [text name, ofText? (c.keys.map Config.namesText), ofText? c.resolveQuery]

def sourcesView (s : Store) : List (Int × Source) := s.sources.entries

def documentsView (s : Store) : List (List Cell) :=
  s.documents.entries.map fun (id, d) =>
    [number id, text d.name, text d.kind.text, ofText? d.condition?, number d.source]

def valuesView (s : Store) (document : Int) : List (List Cell) :=
  sortRows <| (s.values.rows.filter (·.document? = some document)).map fun v =>
    [number v.position.line, number v.position.column, text v.kind.text, text v.raw,
      ofText? (v.expected?.map (·.name)), ofText? (v.expected?.map (·.modifiers))]

def fieldArgumentsView (s : Store) (document : Int) : List (List Cell) :=
  let placed := (s.placements.rows.filter (·.document = document)).map (·.child)
  let rows := s.fieldArguments.rows.filterMap fun a =>
    if a.selection ∈ placed then
      (s.selections.get? a.selection).map fun row =>
        [text row.name, text a.name, ofText? a.declared?, number a.position.line,
          number a.position.column]
    else none
  sortRows (distinct rows)

def placementsView (s : Store) (document : Int) : List (List Cell) :=
  (s.placements.rows.filter (·.document = document)).filterMap fun p =>
    (s.selections.get? p.child).map fun row =>
      [text row.kind.text, text row.name, number p.index, number p.position.line,
        number p.position.column]

def markersOf (s : Store) (variableId : Int) : List (String × String × ValueKind × String) :=
  let t := s.directives .declaration
  (t.usesOf variableId).flatMap fun (id, use) =>
    (t.argumentsOf id).filterMap fun (_, a) =>
      (s.values.get? a.value).map fun v => (use.name, a.name, v.kind, v.raw)

def variablesView (s : Store) (document : Int) : Except Failure (List VariableView) :=
  (s.variablesOf document).mapM fun (id, row) => do
    let default? ← match row.default? with
      | none => pure none
      | some value => some <$> s.value value
    return ⟨row, default?, s.markersOf id⟩

def componentFieldsView (s : Store) : List (List Cell) :=
  let rows := sortBy (fun a b => decide (a.1 ≤ b.1)) s.componentFields.rows
  rows.filterMap fun (document, c) =>
    (s.documents.get? document).map fun d =>
      [text d.name, text c.prop, text c.field, text c.type, ofFlag c.inline]

def isDeleteDirective (name : String) : Bool :=
  "_delete".toList.isSuffixOf (name.toList.map Char.toLower)

def deleteDirectivesView (s : Store) : List (List Cell) :=
  let rows := (s.schema.directives.rows.filter fun (name, _) => isDeleteDirective name).flatMap
    fun (name, d) =>
      let locations := s.schema.directiveLocations.rows.filterMap fun (pair, _) =>
        if pair.1 == name then some (text pair.2) else none
      (if locations.isEmpty then [nothing] else locations).map fun location =>
        [text name, ofFlag d.repeatable, ofFlag d.internal, ofFlag d.visible,
          ofText? d.description?, location]
  sortBy (fun a b => (compareRows a b).isLE) rows

def listsView (s : Store) : List (ListRow × String) :=
  s.lists.rows.filterMap fun l => (s.documents.get? l.document).map fun d => (l, d.name)

end Store

end GraphDoc
