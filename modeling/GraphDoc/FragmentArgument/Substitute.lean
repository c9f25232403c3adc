import GraphDoc.Closure
import GraphDoc.Store.Tree

/-!
# Substitution

The variables in the field arguments of a document are replaced by copies of the values that a scope
binds them to. Variables inside lists and objects come first, so a value that was put in is never
looked at again.
-/

set_option autoImplicit false

namespace GraphDoc

abbrev Scope := NameMap Int

namespace Store

def copyValuesBelow (document : Int) : Nat → Int → Int → Store → Store
  | 0, _, _, s => s
  | depth + 1, source, copy, s =>
    (s.linksOf source).foldl (fun s link =>
      match s.values.get? link.2.value with
      | none => s
      | some row =>
        let (s, id) := s.addValueRow { row with document? := some document }
        let (s, _) := s.addValueLink { link.2 with parent := copy, value := id }
        copyValuesBelow document depth link.2.value id s) s

/-- Copies a value to `document` in place of another one, whose expected type and position the copy
takes. -/
def copyInPlaceOf (s : Store) (value replaced document : Int) : Except Failure (Store × Int) :=
  match s.values.get? value, s.values.get? replaced with
  | some v, some r =>
    let (s, root) := s.addValueRow
      { r with kind := v.kind, raw := v.raw, document? := some document }
    .ok (copyValuesBelow document (s.values.size + 1) value root s, root)
  | _, _ => .error (.missingValue value)

def eraseVariable (s : Store) (value : Int) : Store :=
  { s with values := s.values.filterRows fun id row => id ≠ value || row.kind ≠ .var }

def argumentsIn (s : Store) (document : Int) : List (Int × FieldArgument) :=
  let here := s.placements.rows.filter (·.document = document)
  distinctBy (·.1) (here.flatMap fun p => s.argumentRows p.child)

/-- Some values and all that they contain; no chain of values is longer than there are links. -/
def contents (s : Store) (values : List Int) : List Int :=
  closure (fun id => (s.linksOf id).map (·.2.value)) s.valueLinks.size values

def variableName? (s : Store) (value : Int) : Option String :=
  (s.values.get? value).bind fun row => if row.kind = .var then some row.raw else none

def nestedVariables (s : Store) (document : Int) : List (Int × Int × String) :=
  let inside := s.contents ((s.argumentsIn document).map (·.2.value))
  s.valueLinks.entries.filterMap fun (id, link) =>
    if link.parent ∈ inside then (s.variableName? link.value).map fun name => (id, link.value, name)
    else none

def directVariables (s : Store) (document : Int) : List (Int × Int × String) :=
  (s.argumentsIn document).filterMap fun (id, a) =>
    (s.variableName? a.value).map fun name => (id, a.value, name)

def setLink (s : Store) (link value : Int) : Store :=
  { s with valueLinks := s.valueLinks.modify link fun l => { l with value := value } }

def setArgument (s : Store) (argument value : Int) : Store :=
  { s with fieldArguments := s.fieldArguments.modify argument fun a => { a with value := value } }

def replaceVariable (scope : Scope) (document : Int) (set : Store → Int → Int → Store) (s : Store)
    (found : Int × Int × String) : Except Failure Store := do
  let (place, replaced, name) := found
  match NameMap.get? name scope with
  | none => return s
  | some value =>
    let (s, copy) ← s.copyInPlaceOf value replaced document
    return (set s place copy).eraseVariable replaced

def substitute (s : Store) (document : Int) (scope : Scope) : Except Failure Store := do
  let s ← (s.nestedVariables document).foldlM (replaceVariable scope document setLink) s
  (s.directVariables document).foldlM (replaceVariable scope document setArgument) s

end Store

end GraphDoc
