import GraphDoc.Framework
import GraphDoc.Store.Tree

/-!
# Component fields

A fragment on `User` tagged `@componentField(prop: "user", field: "Avatar")` declares a virtual
field `User.Avatar`. Discovery checks the declarations, names each fragment after its field and adds
the field to the schema. Later every selection of the field becomes a spread of the fragment, and
the arguments of the selection become those of a `@with` directive on the spread.
-/

set_option autoImplicit false

namespace GraphDoc

namespace ComponentField

structure Declaration where
  document : Int
  name : String
  condition : String
  inline : Bool
  prop : String
  field : String
  location : Location
deriving DecidableEq, Inhabited

namespace Declaration

def key (d : Declaration) : String × String × String := (d.condition, d.prop, d.field)

def fieldId (d : Declaration) : String := Schema.idOf d.condition d.field

def problem? (schema : Schema) (d : Declaration) : Option String :=
  if d.prop.isEmpty then some ("Component field " ++ d.name ++ " needs a prop")
  else if d.field.isEmpty then some ("Component field " ++ d.name ++ " needs a field name")
  else match schema.typeKind? d.condition with
    | none => some ("Unknown type " ++ d.condition)
    | some kind =>
      if kind.isAbstract then
        some ("Component fields can't be declared on the abstract type " ++ d.condition)
      else none

end Declaration

end ComponentField

namespace Store

open ComponentField

/-- The text of a directive's argument; the last one that is a string stands. -/
def textArgument? (s : Store) (site : Site) (use : Int) (name : String) : Option String :=
  let texts := ((s.directives site).argumentsOf use).filterMap fun a =>
    if a.2.name == name then
      (s.values.get? a.2.value).bind fun v =>
        if v.kind = .string || v.kind = .block then some v.raw else none
    else none
  texts.getLast?

def componentDeclarations (s : Store) : List Declaration :=
  s.documents.entries.flatMap fun (id, d) =>
    if d.kind = .fragment then
      ((s.directives .document).usesOf id).filterMap fun (use, u) =>
        if u.name == Framework.componentFieldTag then
          (s.sources.get? d.source).map fun source => {
            document := id
            name := d.name
            condition := d.condition?.getD ""
            inline := source.inline
            prop := (s.textArgument? .document use Framework.propArgument).getD ""
            field := (s.textArgument? .document use Framework.fieldArgument).getD ""
            location :=
              .ofPosition source.filepath source.offsetLine source.offsetColumn u.position }
        else none
    else []

def renameFragment (s : Store) (document : Int) (old new : String) : Store :=
  { s with
    documents := s.documents.modify document fun d => { d with name := new }
    selections := s.selections.mapRows fun _ row =>
      if row.kind = .fragment && row.name == old then { row with name := new } else row }

def registerComponent (s : Store) (d : Declaration) : Store :=
  let name := Framework.componentFragment d.condition d.field
  let s := if d.name == name then s else s.renameFragment d.document d.name name
  let field : FieldRow :=
    ⟨d.condition, d.field, ⟨Framework.componentType, ""⟩, none, none, true⟩
  { s with
    componentFields := s.componentFields.put d.document ⟨d.prop, d.field, d.condition, d.inline⟩
    schema := { s.schema with fields := s.schema.fields.add d.fieldId field } }

/-- Takes the declarations of one key, of which the first stands for all. `fields` are the fields
that were entered so far: several props may share a field. -/
def registerGroup (outcome : Store × Diagnostics × List String) (group : List Declaration) :
    Store × Diagnostics × List String :=
  let (s, found, fields) := outcome
  match group with
  | [] => outcome
  | d :: others =>
    let duplicate :=
      if others.isEmpty then []
      else [⟨.validation, "Duplicate component field " ++ d.fieldId ++ " for prop " ++ d.prop,
        group.map (·.location)⟩]
    if d.fieldId ∉ fields && (s.schema.fieldType? d.fieldId).isSome then
      let taken := Diagnostic.validation
        (d.condition ++ " already has a field named " ++ d.field) d.location
      (s, found ++ duplicate ++ [taken], fields)
    else (s.registerComponent d, found ++ duplicate, fields ++ [d.fieldId])

/-- Declarations that agree in type, prop and field, in the order in which these first came. -/
def componentGroups (ds : List Declaration) : List (List Declaration) :=
  (distinct (ds.map (·.key))).map fun key => ds.filter (·.key = key)

def discoverComponentFields (s : Store) : Store × Diagnostics :=
  let ds := s.componentDeclarations
  let problems := ds.filterMap fun d =>
    (d.problem? s.schema).map fun message => Diagnostic.validation message d.location
  let sound := ds.filter fun d => (d.problem? s.schema).isNone
  let (s, found, _) := (componentGroups sound).foldl registerGroup (s, problems, [])
  (s, found)

/-! ## Spreads -/

def moveArgument (use : Int) (s : Store) (argument : Int × FieldArgument) : Store :=
  let (s, _) := s.addDirectiveArgument .selection
    ⟨use, argument.2.name, argument.2.value, argument.2.position⟩
  { s with fieldArguments := s.fieldArguments.erase argument.1 }

def firstPosition (s : Store) (selection : Int) : Position :=
  match s.placements.rows.find? (·.child = selection) with
  | some p => p.position
  | none => ⟨0, 0⟩

def spreadComponent (s : Store) (found : Int × ComponentField) : Store :=
  let (selection, c) := found
  let position := s.firstPosition selection
  let row : SelectionRow :=
    ⟨Framework.componentFragment c.type c.field, none, .fragment, none⟩
  let s := { s with selections := s.selections.modify selection fun _ => row }
  match s.argumentRows selection with
  | [] => s
  | arguments =>
    let (s, use) := s.addDirective .selection ⟨selection, Framework.withTag, position⟩
    arguments.foldl (moveArgument use) s

def componentSelections (s : Store) : List (Int × ComponentField) :=
  s.selections.entries.flatMap fun (id, row) =>
    s.componentFields.rows.filterMap fun (_, c) =>
      if row.kind = .field && row.type? = some (Schema.idOf c.type c.field) then some (id, c)
      else none

def spreadComponentFields (s : Store) : Store × Nat :=
  let found := s.componentSelections
  (found.foldl spreadComponent s, found.length)

end Store

end GraphDoc
