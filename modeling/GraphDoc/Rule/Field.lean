import GraphDoc.Rule.Basic

/-!
# Field rules

Fields that the schema does not have, and aliases that hide a key.
-/

set_option autoImplicit false

namespace GraphDoc.Rule

/-- A field must exist. Component fields are in the schema by now. -/
def unknownFields : Rule := .reading "unknown fields" fun _ s =>
  s.reportEach s.uses fun u =>
    match u.selection.kind, u.selection.type? with
    | .field, some id =>
      if s.schema.fields.contains id then none
      else
        let (parent, field) := (Text.splitLast? '.' id).getD ("", id)
        some ("Cannot query field \"" ++ field ++ "\" on type \"" ++ parent ++ "\"")
    | _, _ => none

/-- An alias must not be the name of a key of the type. -/
def keyAliases : Rule := .reading "key aliases" fun _ s =>
  s.reportEach s.uses fun u =>
    match u.selection.kind, u.selection.label?, u.selection.type?.bind s.schema.fields.get? with
    | .field, some label, some field =>
      if label ≠ u.selection.name && label ∈ s.keys field.parent then
        some (label ++ " is a key of " ++ field.parent ++ " and can't be used as an alias")
      else none
    | _, _, _ => none

end GraphDoc.Rule
