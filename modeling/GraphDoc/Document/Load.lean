import GraphDoc.Document.Inline
import GraphDoc.Store.Tree

/-!
# Loading documents

The operations and fragments of a source become rows. A selection that the schema does not know is
stored all the same, without a type below it, so that it can be reported later. A source that does
not parse adds nothing.
-/

set_option autoImplicit false

namespace GraphDoc

open Grammar

namespace Source

def location (source : Source) (p : Position) : Location :=
  .ofPosition source.filepath source.offsetLine source.offsetColumn p

end Source

namespace Store

/-! ## Directives and selections -/

def loadDirectiveArgument (site : Site) (document use : Int) (d : Directive) (s : Store)
    (argument : String × Literal) : Store :=
  let (s, value) := s.addValue (some document) d.position
    (s.schema.directiveArgumentType? d.name argument.1) argument.2.toValue
  (s.addDirectiveArgument site ⟨use, argument.1, value, d.position⟩).1

def loadDirective (site : Site) (document owner : Int) (s : Store) (d : Directive) : Store :=
  let (s, use) := s.addDirective site ⟨owner, d.name, d.position⟩
  d.arguments.foldl (loadDirectiveArgument site document use d) s

def loadDirectives (site : Site) (document owner : Int) (s : Store) (ds : List Directive) :
    Store :=
  ds.foldl (loadDirective site document owner) s

/-- An argument is bound to the schema's argument of its name, if there is one. -/
def loadFieldArgument (document selection : Int) (type? : Option String) (p : Position)
    (s : Store) (argument : String × Literal) : Store :=
  let id? := type?.map (Schema.idOf · argument.1)
  let expected? := id?.bind s.schema.argumentType?
  let (s, value) := s.addValue (some document) p expected? argument.2.toValue
  let declared? := if expected?.isSome then id? else none
  (s.addFieldArgument ⟨selection, argument.1, value, declared?, p⟩).1

def placeSelection (s : Store) (document : Int) (parent? : Option Int) (index : Int)
    (p : Position) (row : SelectionRow) : Store × Int :=
  let (s, id) := s.addSelection row
  ((s.addPlacement ⟨parent?, id, document, index, p⟩).1, id)

mutual

/-- Loads one selection below `parent?`, where fields of `scope?` are selected. -/
def loadSelection (document : Int) (scope? : Option String) (parent? : Option Int) (index : Int)
    (s : Store) : Selection → Store
  | .field p label? name arguments directives selections =>
    let type? := scope?.map (Schema.idOf · name)
    let (s, id) := s.placeSelection document parent? index p ⟨name, label?, .field, type?⟩
    let s := arguments.foldl (loadFieldArgument document id type? p) s
    let s := s.loadDirectives .selection document id directives
    let inner? := (type?.bind s.schema.fieldType?).map (·.name)
    loadSelections document inner? (some id) 0 s selections
  | .inline p condition? directives selections =>
    let inner? := condition?.orElse fun _ => scope?
    let (s, id) := s.placeSelection document parent? index p
      ⟨inner?.getD "", none, .inlineFragment, none⟩
    let s := s.loadDirectives .selection document id directives
    loadSelections document inner? (some id) 0 s selections
  | .spread p name directives =>
    let (s, id) := s.placeSelection document parent? index p ⟨name, none, .fragment, none⟩
    s.loadDirectives .selection document id directives

def loadSelections (document : Int) (scope? : Option String) (parent? : Option Int) (index : Int)
    (s : Store) : List Selection → Store
  | [] => s
  | selection :: rest =>
    let s := loadSelection document scope? parent? index s selection
    loadSelections document scope? parent? (index + 1) s rest

end

/-! ## Variables -/

/-- Declares a variable. A default that does not fit is reported and kept. -/
def declare (source : Source) (document : Int) (p : Position) (name label : String)
    (type : TypeRef) (default? : Option Value) (s : Store) : Store × Diagnostics :=
  match default? with
  | none => ((s.addVariable ⟨document, name, type, none, p⟩).1, [])
  | some value =>
    let found :=
      match value.check type.modifiers with
      | .ok () => []
      | .error misfit =>
        [Diagnostic.validation ("Invalid default value for " ++ label ++ ": " ++ misfit.message)
          (source.location p)]
    let (s, id) := s.addValue (some document) p (some type) value
    ((s.addVariable ⟨document, name, type, some id, p⟩).1, found)

def loadVariable (source : Source) (document : Int) (s : Store) (v : VariableDefinition) :
    Store × Diagnostics :=
  s.declare source document v.position v.name ("$" ++ v.name) (.ofExpr v.type)
    (v.default?.map (·.toValue))

/-- The type that an argument declaration `{ type: "T!", default: V }` gives. -/
def declaredType? (declaration : Value) : Option TypeRef :=
  match declaration.kind, declaration.field? "type" with
  | .object, some type => if type.kind = .string then some (.ofText type.raw) else none
  | _, _ => none

def loadFragmentArgument (source : Source) (document : Int) (p : Position) (s : Store)
    (argument : String × Literal) : Store × Diagnostics :=
  let declaration := argument.2.toValue
  match declaredType? declaration with
  | none =>
    (s, [Diagnostic.validation
      ("Fragment argument " ++ argument.1 ++ " must be an object with a string type")
      (source.location p)])
  | some type =>
    s.declare source document p argument.1 ("fragment argument " ++ argument.1) type
      (declaration.field? "default")

def loadEach {α : Type} (step : Store → α → Store × Diagnostics) (s : Store) :
    List α → Store × Diagnostics
  | [] => (s, [])
  | a :: rest =>
    let (s, found) := step s a
    let (s, more) := loadEach step s rest
    (s, found ++ more)

/-! ## Definitions -/

def loadOperation (source : Source) (sourceId : Int) (s : Store) (o : Operation) :
    Store × Diagnostics :=
  let root? := s.schema.rootType? o.kind
  let found :=
    if root?.isNone then
      [Diagnostic.validation ("The schema has no " ++ o.kind.text ++ " type")
        (source.location o.position)]
    else []
  let (s, id) := s.addDocument ⟨o.name?.getD "", sourceId, o.kind, root?, o.position⟩
  let (s, more) := loadEach (loadVariable source id) s o.declarations
  let s := s.loadDirectives .document id id o.directives
  (loadSelections id root? none 0 s o.selections, found ++ more)

def loadFragment (source : Source) (sourceId : Int) (s : Store) (f : Fragment) :
    Store × Diagnostics :=
  let (s, id) := s.addDocument ⟨f.name, sourceId, .fragment, some f.condition, f.position⟩
  let s := s.loadDirectives .document id id f.directives
  let declarations := f.directives.filter (·.name == Framework.argumentsTag)
  let (s, found) := loadEach
    (fun s d => loadEach (loadFragmentArgument source id d.position) s d.arguments) s declarations
  (loadSelections id (some f.condition) none 0 s f.selections, found)

def loadDefinition (source : Source) (sourceId : Int) (s : Store) :
    Definition → Store × Diagnostics
  | .operation o => s.loadOperation source sourceId o
  | .fragment f => s.loadFragment source sourceId f

def loadSource (s : Store) (entry : Int × Source) : Store × Diagnostics :=
  let (id, source) := entry
  match parseDocument source.content with
  | .error p => (s, [⟨.parse, Failure.parseErrorText p, [source.location p]⟩])
  | .ok ds =>
    if source.inline then
      match InlineField.fragment ds source.prop? with
      | .ok f => s.loadFragment source id f
      | .error (issue, p) => (s, [Diagnostic.validation issue.message (source.location p)])
    else loadEach (loadDefinition source id) s ds

/-- A single worker gets the sources in their order. -/
def loadSources (s : Store) : Store × Diagnostics := loadEach loadSource s s.sources.entries

def loadSourcesUnless (cancelled : Bool) (s : Store) : Store × Diagnostics :=
  if cancelled then (s, []) else s.loadSources

end Store

end GraphDoc
