import GraphDoc.ComponentField
import GraphDoc.Document.Load
import GraphDoc.FragmentArgument.Inline
import GraphDoc.ListField
import GraphDoc.ListOperation
import GraphDoc.Rule.Suite
import GraphDoc.RuntimeScalar
import GraphDoc.Schema.Load

/-!
# Compiling a project

All stages on one store. Documents are transformed only when loading and validation found no errors;
what was found is reported in any case.
-/

set_option autoImplicit false

namespace GraphDoc

structure Stats where
  sources : Nat
  documents : Nat
  selections : Nat
  lists : Nat
  clones : Nat
deriving DecidableEq, Inhabited

namespace Store

def stats (s : Store) (clones : Nat) : Stats :=
  ⟨s.sources.size, s.documents.size, s.selections.size, s.lists.size, clones⟩

/-- Adds a schema text and the framework's definitions, all or nothing. -/
def loadSchema (s : Store) (text : String) : Store × Except Failure Unit :=
  s.commit <|
    match Grammar.parseSchema text with
    | .error p => .error (.unreadableSchema p)
    | .ok ds => .ok ({ s with schema := s.schema.addAll ds }, ())

def addSources (s : Store) (sources : List Source) : Store × List Int :=
  sources.foldl (fun (s, ids) source =>
    let (s, id) := s.addSource source
    (s, ids ++ [id])) (s, [])

end Store

structure Project where
  config : Config := {}
  schema : String
  sources : List Source

structure Compiled where
  store : Store
  diagnostics : Diagnostics
  stats : Stats

namespace Project

def prepare (p : Project) : Except Failure Store :=
  match (Store.empty.configure p.config).loadSchema p.schema with
  | (_, .error f) => .error f
  | (s, .ok ()) => .ok (s.addSources p.sources).1

def analyse (p : Project) (s : Store) : Except Failure (Store × Diagnostics) := do
  let (s, loaded) := s.loadSources
  let (s, _) := s.retypeScalars p.config.runtimeScalars
  let (s, components) := s.discoverComponentFields
  let (s, lists) ← s.discoverLists p.config
  let (s, swept) ← Rule.runAll Rule.sweeps p.config s
  let (s, ruled) ← Rule.runAll Rule.rules p.config s
  return (s, loaded ++ components ++ lists ++ swept ++ ruled)

def rewrite (p : Project) (s : Store) : Store :=
  let (s, _) := s.preparePagination p.config
  let (s, _) := s.generateListOperations
  let (s, _) := s.spreadComponentFields
  s

/-- Transforms the documents; gives the number of clones and what went wrong. -/
def transform (p : Project) (s : Store) : Store × Nat × Diagnostics := (p.rewrite s).inlineArguments

/-- Compiles a project. A compilation that is cancelled stops once the project is put down. -/
def compile (p : Project) (cancelled : Bool) : Except Failure Compiled := do
  let s ← p.prepare
  if cancelled then throw .cancelled
  let (s, found) ← p.analyse s
  if Diagnostics.hasErrors found then return ⟨s, found, s.stats 0⟩
  else
    let done := p.transform s
    return ⟨done.1, found ++ done.2.2, done.1.stats done.2.1⟩

end Project

end GraphDoc
