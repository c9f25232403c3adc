import GraphDoc.CloneName
import GraphDoc.FragmentArgument.Clone
import GraphDoc.FragmentArgument.Substitute

/-!
# Inlining fragment arguments

A fragment that declares arguments is a template. Every spread of it is led to a clone whose name
covers the arguments that the spread applies, and the clone's variables are replaced by these, by
the declared defaults, or by null. Clones are worked on in turn, so that the spreads inside them are
resolved in their scope.

The work list starts with the operations and the fragments without arguments. Clones come first, in
the order in which they were made.
-/

set_option autoImplicit false

namespace GraphDoc

namespace Inlining

structure Task where
  document : Int
  scope : Scope
deriving DecidableEq, Inhabited

/-- The work done on one document: the store, the names of all clones so far, the shared null value
and the clones that are still to be worked on. -/
structure Progress where
  store : Store
  clones : List String
  null? : Option Int
  tasks : List Task

def spreads (s : Store) (document : Int) : List (Int × String) :=
  ((s.selectionsIn document).filter (·.2.kind = .fragment)).map fun (id, row) => (id, row.name)

/-- The defaults that a fragment declares; a variable of an operation keeps its name. -/
def ownDefaults (s : Store) (document : Int) : NameMap Int :=
  match s.documents.get? document with
  | some ⟨_, _, .fragment, _, _⟩ =>
    NameMap.ofPairs <| (s.variablesOf document).filterMap fun (_, v) =>
      v.default?.map fun value => (v.name, value)
  | _ => []

/-- The row that an argument stands for: a variable stands for what the scope binds it to, or for
its default. -/
def resolve (s : Store) (t : Task) (value : Int) : Option Int :=
  (s.values.get? value).map fun row =>
    if row.kind = .var then
      ((NameMap.get? row.raw t.scope).orElse fun _ =>
        NameMap.get? row.raw (ownDefaults s t.document)).getD value
    else value

def isWith (s : Store) (spread use : Int) : Bool :=
  (s.directives .selection).uses.entries.any fun (id, u) =>
    id = use && u.owner = spread && u.name == Framework.withTag

def applied (s : Store) (t : Task) (spread : Int) : NameMap Int :=
  NameMap.ofPairs <| (s.directives .selection).arguments.rows.filterMap fun a =>
    if isWith s spread a.owner then (resolve s t a.value).map fun value => (a.name, value) else none

def texts (s : Store) (arguments : NameMap Int) : Except Failure (NameMap String) :=
  arguments.mapM fun (name, value) =>
    match s.values.get? value with
    | some row => .ok (name, row.raw)
    | none => .error (.missingValue value)

def bind (arguments : NameMap Int) (outcome : Store × Option Int × List (String × Int))
    (declared : VariableRow) : Store × Option Int × List (String × Int) :=
  let (s, null?, pairs) := outcome
  match (NameMap.get? declared.name arguments).orElse fun _ => declared.default? with
  | some value => (s, null?, pairs ++ [(declared.name, value)])
  | none =>
    match null? with
    | some value => (s, null?, pairs ++ [(declared.name, value)])
    | none =>
      let (s, value) := s.addValueRow ⟨.null, "null", none, none, ⟨0, 0⟩⟩
      (s, some value, pairs ++ [(declared.name, value)])

def renameSelection (s : Store) (id : Int) (name : String) : Store :=
  { s with selections := s.selections.modify id fun row => { row with name := name } }

def visitSpread (t : Task) (p : Progress) (spread : Int × String) : Except Failure Progress := do
  let s := p.store
  let some (target, row) := s.findDocument spread.2 .fragment | return p
  let declared := (s.variablesOf target).map (·.2)
  if declared.isEmpty then return p
  let arguments := applied s t spread.1
  let name := CloneName.cloneName row.name (← texts s arguments)
  let s := renameSelection s spread.1 name
  if name ∈ p.clones then return { p with store := s }
  let (s, clone) := s.cloneFragment target row name
  let (s, null?, pairs) := declared.foldl (bind arguments) (s, p.null?, [])
  return ⟨s, p.clones ++ [name], null?, p.tasks ++ [⟨clone, NameMap.ofPairs pairs⟩]⟩

def visitSpreads (t : Task) : List (Int × String) → Progress → Progress × Option Failure
  | [], p => (p, none)
  | spread :: rest, p =>
    match visitSpread t p spread with
    | .ok p => visitSpreads t rest p
    | .error f => (p, some f)

def substituted (s : Store) (t : Task) : Except Failure Store :=
  if t.scope.isEmpty then .ok s else s.substitute t.document t.scope

def perform (s : Store) (clones : List String) (null? : Option Int) (t : Task) :
    Progress × Option Failure :=
  let start : Progress := ⟨s, clones, null?, []⟩
  if (s.documents.get? t.document).isNone then (start, some (.missingDocument t.document))
  else
    match substituted s t with
    | .error f => (start, some f)
    | .ok s => visitSpreads t (spreads s t.document) { start with store := s }

end Inlining

open Inlining in
structure Inlining where
  store : Store
  followUps : List Task
  roots : List Task
  clones : List String := []
  null? : Option Int := none
  made : Nat := 0
  diagnostics : Diagnostics := []

namespace Inlining

/-- What remains of a task: its outcome if it went well, else a diagnostic. The names of clones are
kept in both cases. -/
def settle (w : Inlining) (t : Task) (outcome : Progress × Option Failure) : Inlining :=
  let (p, failure?) := outcome
  let result : Except Failure (Store × Unit) :=
    match failure? with
    | none => .ok (p.store, ())
    | some f => .error f
  match w.store.commit result with
  | (s, .ok ()) =>
    { w with
      store := s
      clones := p.clones
      null? := p.null?
      made := w.made + p.tasks.length
      followUps := w.followUps ++ p.tasks }
  | (s, .error f) =>
    let message := "failed to inline fragment arguments in document " ++ toString t.document ++
      ": " ++ f.message
    { w with
      store := s
      clones := p.clones
      null? := none
      diagnostics := w.diagnostics ++ [⟨.internal, message, []⟩] }

def next? (w : Inlining) : Option (Task × Inlining) :=
  match w.followUps, w.roots with
  | t :: rest, _ => some (t, { w with followUps := rest })
  | [], t :: rest => some (t, { w with roots := rest })
  | [], [] => none

def step (w : Inlining) : Inlining :=
  match w.next? with
  | none => w
  | some (t, w) => w.settle t (perform w.store w.clones w.null? t)

def isDone (w : Inlining) : Bool := w.followUps.isEmpty && w.roots.isEmpty

/-- A single worker gets the tasks from its queue until that is empty. -/
def run : Nat → Inlining → Inlining
  | 0, w => w
  | fuel + 1, w => if w.isDone then w else run fuel w.step

def rootDocuments (s : Store) : List Int :=
  (s.documents.entries.filter fun (id, d) =>
    d.kind ≠ .fragment || (s.variablesOf id).isEmpty).map (·.1)

def start (s : Store) : Inlining where
  store := s
  followUps := []
  roots := (rootDocuments s).map fun id => ⟨id, []⟩

/-- No more clones than templates times endings. -/
def fuelFor (s : Store) : Nat := s.documents.size + s.documents.size * 4294967296

end Inlining

namespace Store

def inlineArguments (s : Store) : Store × Nat × Diagnostics :=
  let w := Inlining.run (Inlining.fuelFor s) (Inlining.start s)
  (w.store, w.made, w.diagnostics)

def inlineArgumentsUnless (cancelled : Bool) (s : Store) : Store × Nat × Diagnostics :=
  if cancelled then (s, 0, []) else s.inlineArguments

end Store

end GraphDoc
