import GraphDoc.Framework
import GraphDoc.Grammar.Executable

/-!
# Inline component fields

A component can declare its field with an anonymous inline fragment,
`{ ... on User @componentField(field: "Avatar") { avatar } }`. It stands for a fragment whose name
is made from the type and the field.
-/

set_option autoImplicit false

namespace GraphDoc

open Grammar

inductive InlineIssue where
  | notAnonymous
  | notFragment
  | severalRoots
  | noCondition
  | noTag
  | noField
  | notText (argument : String)
deriving DecidableEq, Inhabited

namespace InlineIssue

def message : InlineIssue → String
  | notAnonymous => "An inline component field must be a single anonymous selection"
  | notFragment => "An inline component field must contain an inline fragment"
  | severalRoots => "An inline component field can only have one root selection"
  | noCondition => "An inline component field needs a type condition"
  | noTag => "An inline component field needs @" ++ Framework.componentFieldTag
  | noField => "@" ++ Framework.componentFieldTag ++ " needs a field argument"
  | notText argument =>
    "@" ++ Framework.componentFieldTag ++ "(" ++ argument ++ ":) must be a string"

end InlineIssue

namespace InlineField

abbrev Result := Except (InlineIssue × Position)

def textArgument (d : Directive) (name : String) : Result (Option String) :=
  match d.arguments.lookup name with
  | none => .ok none
  | some (.string text) => .ok (some text)
  | some _ => .error (.notText name, d.position)

def addArgument (argument : String × Literal) : List Directive → List Directive
  | [] => []
  | d :: ds =>
    if d.name == Framework.componentFieldTag then
      { d with arguments := d.arguments ++ [argument] } :: ds
    else d :: addArgument argument ds

def body (ds : List Definition) : Result Operation :=
  match ds with
  | [.operation o] =>
    if o.kind = .query && o.name?.isNone then .ok o else .error (.notAnonymous, ⟨1, 1⟩)
  | _ => .error (.notAnonymous, ⟨1, 1⟩)

/-- The fragment that an inline component field stands for. The prop is added unless the directive
names one. -/
def fragment (ds : List Definition) (prop? : Option String) : Result Fragment := do
  let o ← body ds
  match o.selections with
  | [.inline position condition? directives selections] =>
    let some condition := condition? | throw (.noCondition, position)
    let some d := directives.find? (·.name == Framework.componentFieldTag)
      | throw (.noTag, position)
    let some field := ← textArgument d Framework.fieldArgument | throw (.noField, d.position)
    let existing? ← textArgument d Framework.propArgument
    let directives :=
      match existing?, prop? with
      | none, some prop => addArgument (Framework.propArgument, .string prop) directives
      | _, _ => directives
    let name := Framework.componentFragment condition field
    return ⟨name, condition, directives, selections, position⟩
  | [] | [_] => throw (.notFragment, o.body)
  | _ => throw (.severalRoots, o.body)

end InlineField

end GraphDoc
