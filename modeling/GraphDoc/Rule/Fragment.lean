import GraphDoc.Rule.Basic

/-!
# Fragment rules

Spreads must name a fragment and pass what it asks for, and names are unique within a kind.
-/

set_option autoImplicit false

namespace GraphDoc.Rule

open Framework

def generatedFragments (s : Store) : List String :=
  s.lists.rows.flatMap fun l =>
    if l.name.isEmpty then [] else operationEndings.map (l.name ++ ·)

/-- The spreads by document and selection; a spot that several documents share counts for the
first of them. -/
def spreadsInOrder (s : Store) : List Use := Store.onePerSpot (sortBy Use.le s.spreadUses)

def unknownFragments : Rule := .reading "unknown fragments" fun _ s =>
  let generated := generatedFragments s
  s.reportEach (spreadsInOrder s) fun u =>
    let name := u.selection.name
    if name ∈ generated || (s.findDocument name .fragment).isSome then none
    else some ("Unknown fragment \"" ++ name ++ "\"")

def withArguments (s : Store) (spread : Int) :
    Except Failure (Option (List (String × Int × Location))) := do
  let t := s.directives .selection
  let withs := (t.usesOf spread).filter (·.2.name == withTag)
  if withs.isEmpty then return none
  match s.uses.find? (·.id = spread) with
  | none => return some []
  | some u =>
    let arguments := withs.flatMap fun (id, _) => t.argumentsOf id
    let located ← arguments.mapM fun (_, a) => do
      return (a.name, a.value, ← s.location u.document.source a.position)
    return some located

def isRequired (v : VariableRow) : Bool := v.type.isNonNull && v.default?.isNone

def declaredVariables? (s : Store) (fragment : String) : Option (List VariableRow) :=
  (s.findDocument fragment .fragment).map fun (id, _) => (s.variablesOf id).map (·.2)

/-- Spreads of fragments with required arguments must pass some. -/
def missingWith : Rule := .reading "missing with" fun _ s => do
  let found ← (spreadsInOrder s).mapM fun u => do
    let some declared := declaredVariables? s u.selection.name | return []
    if !declared.any isRequired then return []
    let passed := (← withArguments s u.id).getD []
    if passed.isEmpty then
      return [← s.report u (u.selection.name ++ " has required arguments; pass them with @" ++
        withTag)]
    else return []
  return found.flatten

def argumentProblem? (s : Store) (fragment : String) (declared : List VariableRow)
    (name : String) (value : Int) : Except Failure (Option String) := do
  match declared.find? (·.name == name) with
  | none => return some (fragment ++ " has no argument named " ++ name)
  | some v =>
    match (← s.value value).check v.type.modifiers with
    | .ok () => return none
    | .error misfit =>
      return some ("Invalid value for argument " ++ name ++ " of " ++ fragment ++ ": " ++
        misfit.message)

def checkSpread (s : Store) (u : Use) : Except Failure Diagnostics := do
  let fragment := u.selection.name
  let some arguments ← withArguments s u.id | return []
  let some declared := declaredVariables? s fragment | return []
  let problems ← arguments.mapM fun (name, value, location) => do
    match ← argumentProblem? s fragment declared name value with
    | some message => return [Diagnostic.validation message location]
    | none => return []
  let missing := declared.filter fun v =>
    isRequired v && !arguments.any fun (name, _, _) => name == v.name
  let absent ← missing.mapM fun v =>
    s.report u ("Missing required argument " ++ v.name ++ " of " ++ fragment)
  return problems.flatten ++ absent

def withValues : Rule := .reading "with values" fun _ s => do
  return (← (spreadsInOrder s).mapM (checkSpread s)).flatten

/-- Document names are unique within a kind. -/
def duplicateDocuments : Rule := .reading "duplicate documents" fun _ s => do
  let named := s.documents.rows.filter fun d => !d.name.isEmpty
  let le := fun (a b : String × String) => a.1 < b.1 || (a.1 == b.1 && a.2 ≤ b.2)
  let keys := sortBy (fun a b => le a b) (distinct (named.map fun d => (d.kind.text, d.name)))
  let groups := keys.map fun key => (key, named.filter fun d => (d.kind.text, d.name) = key)
  (groups.filter (·.2.length > 1)).mapM fun ((kind, name), ds) => do
    return ⟨.validation, "There are " ++ toString ds.length ++ " " ++ kind ++
      " documents named " ++ name, ← ds.mapM fun d => s.location d.source d.position⟩

end GraphDoc.Rule
