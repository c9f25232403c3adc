import GraphDoc.Rule.Basic

/-!
# Directive rules

Which directives and arguments are known, where the framework's directives may stand, and which of
them exclude each other.
-/

set_option autoImplicit false

namespace GraphDoc.Rule

open Framework

/-- A directive on a selection counts wherever the selection is placed. -/
def placedDirectives (s : Store) : List (Int × DirectiveUse × DocumentRow) :=
  (s.directives .selection).uses.entries.flatMap fun (id, d) =>
    (s.uses.filter (·.id = d.owner)).map fun u => (id, d, u.document)

def documentDirectives (s : Store) : List (Int × DirectiveUse × DocumentRow) :=
  (s.directives .document).uses.entries.filterMap fun (id, d) =>
    (s.documents.get? d.owner).map fun document => (id, d, document)

/-- Directives must be declared. The delete directive of a list's node type comes later. -/
def unknownDirectives : Rule := .reading "unknown directives" fun _ s => do
  let declared := fun (d : DirectiveUse) => s.schema.directives.contains d.name
  let generated := s.lists.rows.map fun l => deleteDirective l.nodeType
  let found :=
    (placedDirectives s).filter (fun (_, d, _) => !declared d && d.name ∉ generated) ++
    (documentDirectives s).filter fun (_, d, _) => !declared d
  found.mapM fun (_, d, document) => do
    return .validation ("Unknown directive \"@" ++ d.name ++ "\"")
      (← s.location document.source d.position)

def isUnknownArgument (schema : Schema) (directive argument : String) : Bool :=
  directive ∉ freeFormTags && schema.directives.contains directive &&
    !schema.directiveArguments.contains (directive, argument)

def unknownArguments (s : Store) (site : Site)
    (directives : List (Int × DirectiveUse × DocumentRow)) : Except Failure Diagnostics :=
  let found := (s.directives site).arguments.rows.flatMap fun a =>
    (directives.filter fun (id, d, _) =>
      id = a.owner && isUnknownArgument s.schema d.name a.name).map fun (_, d, document) =>
        (a, d, document)
  found.mapM fun (a, d, document) => do
    return .validation ("Unknown argument \"" ++ a.name ++ "\" on directive \"@" ++ d.name ++ "\"")
      (← s.location document.source a.position)

/-- Arguments of a declared directive must be declared on it. -/
def directiveArguments : Rule := .reading "directive arguments" fun _ s => do
  return (← unknownArguments s .selection (placedDirectives s)) ++
    (← unknownArguments s .document (documentDirectives s))

def childHas (s : Store) (u : Use) (directive : String) : Bool :=
  s.placements.rows.any fun p =>
    p.document = u.documentId && p.parent? = some u.id && s.hasDirective p.child directive

/-- `@required` belongs on fields of object types, and a non-null field can only carry it when one
of its children does. -/
def required : Rule := .reading "required" fun _ s =>
  s.reportEach (s.usesWith requiredTag) fun u =>
    match u.selection.type? with
    | none => none
    | some id =>
      let parent := Store.parentType (some id)
      if s.schema.typeKind? parent ≠ some .object then
        some ("@required can only be used on fields of object types, not on " ++ parent)
      else
        match s.schema.fieldType? id with
        | none => none
        | some type =>
          if type.isNonNull && !childHas s u requiredTag then
            some ("@required can't be used on the non-null field " ++ u.selection.name)
          else none

def maskDirectives : Rule := .reading "mask directives" fun _ s =>
  s.reportEach (s.usesWith maskEnableTag) fun u =>
    if s.hasDirective u.id maskDisableTag then
      some (u.selection.name ++ " can't use @" ++ maskEnableTag ++ " and @" ++ maskDisableTag ++
        " together")
    else none

def exclusivePairs : List (String × String) :=
  [(prependTag, appendTag), (parentIdTag, allListsTag)]

def conflictingDirectives : Rule := .reading "conflicting directives" fun _ s => do
  let found ← exclusivePairs.mapM fun (first, second) =>
    s.reportEach (s.usesWith first) fun u =>
      if s.hasDirective u.id second then
        some ("@" ++ first ++ " and @" ++ second ++ " can't be used together")
      else none
  return found.flatten

/-- A nested `@loading` needs its parent or its document to be loading too. -/
def loading : Rule := .reading "loading" fun _ s =>
  s.reportEach (s.usesWith loadingTag) fun u =>
    match u.parent? with
    | none => none
    | some parent =>
      if s.hasDirective parent loadingTag ||
          (s.directives .document).has u.documentId loadingTag then none
      else some ("@loading on " ++ u.selection.name ++ " requires its parent to have @loading")

def optimisticKeyScalar : Rule := .reading "optimistic key scalar" fun _ s =>
  s.reportEach (s.usesWith optimisticKeyTag) fun u =>
    match u.selection.type?.bind s.schema.fieldType? with
    | none => none
    | some type =>
      if s.schema.typeKind? type.name ≠ some .scalar then
        some ("@" ++ optimisticKeyTag ++ " can only be used on scalar fields")
      else none

def siblingKey (u : Use) : Int × Option Int := (u.documentId, u.parent?)

def siblingLe (a b : Int × Option Int) : Bool :=
  a.1 < b.1 || (a.1 = b.1 && match a.2, b.2 with
    | none, _ => true
    | some _, none => false
    | some m, some n => m ≤ n)

def siblings (us : List Use) : List (List Use) :=
  (sortBy siblingLe (distinct (us.map siblingKey))).map fun key =>
    us.filter fun u => siblingKey u = key

def nameSet (names : List String) : List String :=
  sortBy (fun a b => a ≤ b) (distinct names)

/-- What is wrong with the optimistic keys of a group of siblings, of which `u` is the first. -/
def optimisticProblem? (s : Store) (u : Use) (group : List Use) : Option String :=
  if u.document.kind ≠ .mutation then
    some ("@" ++ optimisticKeyTag ++ " can only be used in mutations")
  else
    let parent := Store.parentType u.selection.type?
    let keys := nameSet (s.keys parent)
    if keys ≠ nameSet (group.map (·.selection.name)) then
      some ("@" ++ optimisticKeyTag ++ " must be used on every key of " ++ parent ++ " (" ++
        Text.joinWith ", " keys ++ ")")
    else none

/-- Optimistic keys live in mutations and cover every key of their type. -/
def optimisticKeySelection : Rule := .reading "optimistic key selection" fun _ s => do
  let found := (siblings (s.usesWith optimisticKeyTag)).filterMap fun group =>
    match group with
    | [] => none
    | u :: _ => (optimisticProblem? s u group).map fun message => (u, message)
  found.mapM fun (u, message) => s.report u message

end GraphDoc.Rule
