import GraphDoc.Document.Kind
import GraphDoc.Store.Table
import GraphDoc.TypeRef

/-!
# Schema tables

What a project's schema and the framework declare: types, their fields and arguments, memberships,
enum values and directives. A field is known as `Type.field` and an argument as
`Type.field.argument`.
-/

set_option autoImplicit false

namespace GraphDoc

inductive TypeKind where
  | scalar | enum | object | interface | union | input
deriving DecidableEq, Inhabited

namespace TypeKind

def text : TypeKind → String
  | scalar => "SCALAR"
  | enum => "ENUM"
  | object => "OBJECT"
  | interface => "INTERFACE"
  | union => "UNION"
  | input => "INPUT"

def ofText? (s : String) : Option TypeKind :=
  [scalar, enum, object, interface, union, input].find? (·.text == s)

/-- A record of an abstract type is a record of one of its members. -/
def isAbstract : TypeKind → Bool
  | interface | union => true
  | _ => false

/-- Composite types have fields to select, `__typename` among them. -/
def isComposite : TypeKind → Bool
  | object | interface | union => true
  | _ => false

end TypeKind

structure TypeRow where
  kind : TypeKind
  operation? : Option DocumentKind
  builtIn : Bool
  internal : Bool
deriving DecidableEq, Inhabited

structure FieldRow where
  parent : String
  name : String
  type : TypeRef
  default? : Option String
  description? : Option String
  internal : Bool
deriving DecidableEq, Inhabited

structure ArgumentRow where
  field : String
  name : String
  type : TypeRef
deriving DecidableEq, Inhabited

structure DirectiveRow where
  repeatable : Bool
  internal : Bool
  visible : Bool
  description? : Option String
deriving DecidableEq, Inhabited

structure DirectiveArgumentRow where
  type : TypeRef
  default? : Option String
deriving DecidableEq, Inhabited

/-- Memberships pair an abstract type with a member; the other pairs are an enum with a value and a
directive with a location. -/
structure Schema where
  types : Keyed String TypeRow := {}
  fields : Keyed String FieldRow := {}
  arguments : Keyed String ArgumentRow := {}
  members : Keyed (String × String) Unit := {}
  enumValues : Keyed (String × String) Unit := {}
  directives : Keyed String DirectiveRow := {}
  directiveLocations : Keyed (String × String) Unit := {}
  directiveArguments : Keyed (String × String) DirectiveArgumentRow := {}
deriving DecidableEq, Inhabited

namespace Schema

def idOf (owner part : String) : String := owner ++ "." ++ part

def fieldType? (s : Schema) (id : String) : Option TypeRef := (s.fields.get? id).map (·.type)

def argumentType? (s : Schema) (id : String) : Option TypeRef := (s.arguments.get? id).map (·.type)

def directiveArgumentType? (s : Schema) (directive argument : String) : Option TypeRef :=
  (s.directiveArguments.get? (directive, argument)).map (·.type)

def typeKind? (s : Schema) (name : String) : Option TypeKind := (s.types.get? name).map (·.kind)

def rootType? (s : Schema) (kind : DocumentKind) : Option String :=
  (s.types.rows.find? fun (_, row) => row.operation? = some kind).map (·.1)

/-- Every name that a row refers to has a row of its own. The types of directive arguments are not
looked at. -/
def closed (s : Schema) : Bool :=
  s.fields.rows.all (fun (_, f) => s.types.contains f.parent && s.types.contains f.type.name) &&
  s.arguments.rows.all (fun (_, a) => s.fields.contains a.field && s.types.contains a.type.name) &&
  s.members.rows.all (fun (pair, _) => s.types.contains pair.1 && s.types.contains pair.2) &&
  s.enumValues.rows.all (fun (pair, _) => s.types.contains pair.1) &&
  s.directiveLocations.rows.all (fun (pair, _) => s.directives.contains pair.1) &&
  s.directiveArguments.rows.all (fun (pair, _) => s.directives.contains pair.1)

end Schema

end GraphDoc
