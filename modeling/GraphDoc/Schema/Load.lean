import GraphDoc.Grammar.TypeSystem
import GraphDoc.Schema.Basic
import GraphDoc.Schema.Internal
import GraphDoc.Text

/-!
# Loading a schema

The definitions of a schema text enter the tables one by one. A type that is defined again takes the
new kind; fields, arguments and directives that are declared again replace the earlier row; members,
enum values and directive locations only add up. The framework's own definitions come last.
-/

set_option autoImplicit false

namespace GraphDoc.Schema

open Grammar

def addType (internal : Bool) (name : String) (kind : TypeKind) (s : Schema) : Schema :=
  let again := fun row : TypeRow => { row with kind := kind, builtIn := false }
  { s with types := s.types.upsert name ⟨kind, none, false, internal⟩ again }

def addArgument (field : String) (s : Schema) (a : InputValue) : Schema :=
  { s with arguments := s.arguments.put (idOf field a.name) ⟨field, a.name, .ofExpr a.type⟩ }

def addField (internal : Bool) (parent : String) (s : Schema) (f : FieldDefinition) : Schema :=
  let id := idOf parent f.name
  let row := ⟨parent, f.name, .ofExpr f.type, none, f.description?, internal⟩
  f.arguments.foldl (addArgument id) { s with fields := s.fields.put id row }

def defaultText (v : InputValue) : Option String := v.default?.map fun l => l.toValue.print

def addInputField (internal : Bool) (parent : String) (s : Schema) (f : InputValue) : Schema :=
  let row := ⟨parent, f.name, .ofExpr f.type, defaultText f, f.description?, internal⟩
  { s with fields := s.fields.put (idOf parent f.name) row }

def addMember (abstract member : String) (s : Schema) : Schema :=
  { s with members := s.members.add (abstract, member) () }

def addEnumValue (parent : String) (s : Schema) (value : String) : Schema :=
  { s with enumValues := s.enumValues.add (parent, value) () }

def addLocation (directive : String) (s : Schema) (location : String) : Schema :=
  { s with directiveLocations := s.directiveLocations.add (directive, location) () }

def addDirectiveArgument (directive : String) (s : Schema) (a : InputValue) : Schema :=
  { s with directiveArguments :=
      s.directiveArguments.put (directive, a.name) ⟨.ofExpr a.type, defaultText a⟩ }

def addDirective (internal : Bool) (d : DirectiveDefinition) (s : Schema) : Schema :=
  let row := ⟨d.repeatable, internal, true, d.description?.map Text.trim⟩
  let s := { s with directives := s.directives.put d.name row }
  d.arguments.foldl (addDirectiveArgument d.name) (d.locations.foldl (addLocation d.name) s)

def addParts (internal : Bool) (t : TypeDefinition) (s : Schema) : Schema :=
  match t with
  | .scalar _ => s
  | .object name interfaces fields =>
    interfaces.foldl (fun s i => addMember i name s) (fields.foldl (addField internal name) s)
  | .interface name fields => fields.foldl (addField internal name) s
  | .union name members => members.foldl (fun s m => addMember name m s) s
  | .enum name values => values.foldl (addEnumValue name) s
  | .input name fields => fields.foldl (addInputField internal name) s

def defined : TypeDefinition → String × TypeKind
  | .scalar name => (name, .scalar)
  | .object name _ _ => (name, .object)
  | .interface name _ => (name, .interface)
  | .union name _ => (name, .union)
  | .enum name _ => (name, .enum)
  | .input name _ => (name, .input)

def addDefinition (internal : Bool) (s : Schema) : SchemaDefinition → Schema
  | .roots _ => s
  | .type t => addParts internal t (addType internal (defined t).1 (defined t).2 s)
  | .extension t => addParts internal t s
  | .directive d => addDirective internal d s

def addDefinitions (internal : Bool) (ds : List SchemaDefinition) (s : Schema) : Schema :=
  ds.foldl (addDefinition internal) s

/-- The root types: the usual names unless a schema block says otherwise. -/
def rootNames (ds : List SchemaDefinition) : List (DocumentKind × String) :=
  let pick := fun (roots : String × String × String) (d : SchemaDefinition) =>
    match d with
    | .roots r =>
      (r.query?.getD roots.1, r.mutation?.getD roots.2.1, r.subscription?.getD roots.2.2)
    | _ => roots
  let (query, mutation, subscription) := ds.foldl pick ("Query", "Mutation", "Subscription")
  [(.query, query), (.mutation, mutation), (.subscription, subscription)]

/-- Only object types can be roots. -/
def markRoot (s : Schema) (root : DocumentKind × String) : Schema :=
  let mark := fun row : TypeRow =>
    if row.kind = .object then { row with operation? := some root.1 } else row
  { s with types := s.types.modify root.2 mark }

/-- Every composite type has a `__typename: String!` field. -/
def addTypename (s : Schema) (type : String × TypeRow) : Schema :=
  if type.2.kind.isComposite && !type.2.builtIn then
    let field := Framework.typenameField
    let row := ⟨type.1, field, ⟨"String", "!"⟩, none, none, type.2.internal⟩
    { s with fields := s.fields.add (idOf type.1 field) row }
  else s

def addTypenames (s : Schema) : Schema := s.types.rows.foldl addTypename s

def addBuiltInScalar (s : Schema) (name : String) : Schema :=
  { s with types := s.types.add name ⟨.scalar, none, true, false⟩ }

def definitionsOf (text : String) : List SchemaDefinition :=
  match parseSchema text with
  | .ok ds => ds
  | .error _ => []

def builtInDefinitions : List SchemaDefinition := definitionsOf builtInDirectives

def internalDefinitions : List SchemaDefinition := definitionsOf internalText

def addBuiltIns (s : Schema) : Schema :=
  addDefinitions false builtInDefinitions (Framework.builtInScalars.foldl addBuiltInScalar s)

def addProject (ds : List SchemaDefinition) (s : Schema) : Schema :=
  addTypenames ((rootNames ds).foldl markRoot (addDefinitions false ds (addBuiltIns s)))

def hideDirective (s : Schema) (name : String) : Schema :=
  { s with directives := s.directives.modify name fun row => { row with visible := false } }

def addInternal (s : Schema) : Schema :=
  addTypenames (hiddenDirectives.foldl hideDirective (addDefinitions true internalDefinitions s))

def addAll (ds : List SchemaDefinition) (s : Schema) : Schema := addInternal (addProject ds s)

end GraphDoc.Schema
