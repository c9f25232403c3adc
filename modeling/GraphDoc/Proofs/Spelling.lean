import Mathlib.Data.List.Induction
import GraphDoc.Proofs.Handover

/-!
# Projects that are spelled out

The characters of a text literal are out of the kernel's reach, a list of characters is not. A
`Spelling` gives the texts of a project character by character, and `Spelling.analysis?` analyses
the project from them. By `Spelling.exists_analyse` its outcome is that of the analysis, so what a
compilation does with a given project can be computed.
-/

set_option autoImplicit false

namespace GraphDoc

open Grammar

namespace Schema

/-- `addAll` with the framework's texts spelled out. -/
def addAllSpelled (ds : List SchemaDefinition) (s : Schema) : Schema :=
  let s := addDefinitions false (definitionsOfChars spelling.builtIn)
    (Framework.builtInScalars.foldl addBuiltInScalar s)
  let s := addTypenames ((rootNames ds).foldl markRoot (addDefinitions false ds s))
  addTypenames (hiddenDirectives.foldl hideDirective
    (addDefinitions true (definitionsOfChars internalChars) s))

theorem addAll_eq (ds : List SchemaDefinition) (s : Schema) :
    addAll ds s = addAllSpelled ds s := by
  simp only [addAll, addInternal, addProject, addBuiltIns, internalDefinitions, builtInDefinitions,
    internalText_eq, spelling.builtIn_eq, definitionsOf_ofList, addAllSpelled]

end Schema

/-! ## Loading -/

namespace Grammar

def documentChars (cs : List Char) : Except Position (List Definition) :=
  parseChars (fun fuel => definitionsUntilEnd (definition fuel)) cs

theorem parseDocument_ofList (cs : List Char) :
    parseDocument (String.ofList cs) = documentChars cs := parseWith_ofList ..

end Grammar

namespace Store

/-- `loadSource` with the text spelled out. -/
def loadSpelled (s : Store) (entry : (Int × Source) × List Char) : Store × Diagnostics :=
  let ((id, source), cs) := entry
  match documentChars cs with
  | .error p => (s, [⟨.parse, Failure.parseErrorText p, [source.location p]⟩])
  | .ok ds =>
    if source.inline then
      match InlineField.fragment ds source.prop? with
      | .ok f => s.loadFragment source id f
      | .error (issue, p) => (s, [Diagnostic.validation issue.message (source.location p)])
    else loadEach (loadDefinition source id) s ds

theorem loadSource_eq {s : Store} {entry : Int × Source} {cs : List Char}
    (h : entry.2.content = String.ofList cs) : s.loadSource entry = s.loadSpelled (entry, cs) := by
  rw [loadSource, h, parseDocument_ofList]
  rfl

theorem loadEach_loadSource (entries : List (Int × Source)) (texts : List (List Char))
    (h : entries.map (·.2.content) = texts.map String.ofList) (s : Store) :
    loadEach loadSource s entries = loadEach loadSpelled s (entries.zip texts) := by
  induction entries generalizing texts s with
  | nil => rfl
  | cons entry entries ih =>
    cases texts with
    | nil => cases h
    | cons cs texts =>
      obtain ⟨hcs, h⟩ := List.cons.inj h
      simp only [List.zip_cons_cons, loadEach, loadSource_eq hcs, ih texts h]

theorem loadSchema_of_parse {s : Store} {text : String} {ds : List SchemaDefinition}
    (h : parseSchema text = .ok ds)
    (closed : closed { s with schema := s.schema.addAll ds } = true) :
    s.loadSchema text = ({ s with schema := s.schema.addAll ds }, .ok ()) := by
  rw [loadSchema, h, commit]
  simp only [closed, if_true]

theorem addSources_rows (sources : List Source) (s : Store) :
    (s.addSources sources).1.sources.rows = s.sources.rows ++ sources := by
  induction sources using List.reverseRecOn with
  | nil => exact (List.append_nil _).symm
  | append_singleton sources source ih =>
    rw [addSources] at ih ⊢
    rw [List.foldl_append, List.foldl_cons, List.foldl_nil]
    generalize List.foldl _ _ sources = outcome at ih ⊢
    rw [← List.append_assoc, ← ih]
    simp [addSource, Table.push, Table.rows]

end Store

/-! ## Analysing -/

/-- What an analysis does with loaded documents. -/
def Project.examine (p : Project) (loaded : Store × Diagnostics) :
    Except Failure (Store × Diagnostics) := do
  let (s, _) := loaded.1.retypeScalars p.config.runtimeScalars
  let (s, components) := s.discoverComponentFields
  let (s, lists) ← s.discoverLists p.config
  let (s, swept) ← Rule.runAll Rule.sweeps p.config s
  let (s, ruled) ← Rule.runAll Rule.rules p.config s
  return (s, loaded.2 ++ components ++ lists ++ swept ++ ruled)

/-- The texts of a project, spelled out. -/
structure Spelling (p : Project) where
  schema : List Char
  sources : List (List Char)
  schema_eq : p.schema = String.ofList schema
  sources_eq : p.sources.map (·.content) = sources.map String.ofList

namespace Spelling

open Store

variable {p : Project}

/-- The project put down, if its schema can be read. -/
def prepared? (x : Spelling p) : Option Store :=
  match schemaChars x.schema with
  | .error _ => none
  | .ok ds =>
    let s := Store.empty.configure p.config
    let s := { s with schema := s.schema.addAllSpelled ds }
    if s.closed then some (s.addSources p.sources).1 else none

/-- The project loaded, and analysed, if nothing is wrong with it. -/
def analysis? (x : Spelling p) : Option (Store × Store) :=
  match x.prepared? with
  | none => none
  | some s =>
    let loaded := loadEach loadSpelled s (s.sources.entries.zip x.sources)
    match p.examine loaded with
    | .ok (s, []) => some (loaded.1, s)
    | _ => none

theorem prepare_of_prepared? (x : Spelling p) {s : Store} (h : x.prepared? = some s) :
    p.prepare = .ok s ∧ s.sources.rows = p.sources := by
  unfold prepared? at h
  split at h
  · cases h
  · next ds hds =>
    obtain ⟨closed, hs⟩ := Option.ite_none_right_eq_some.mp h
    obtain rfl := Option.some.inj hs
    have parsed : parseSchema p.schema = .ok ds := by rw [x.schema_eq, parseSchema_ofList, hds]
    rw [← Schema.addAll_eq] at closed
    rw [← Schema.addAll_eq]
    refine ⟨?_, ?_⟩
    · unfold Project.prepare
      simp only [loadSchema_of_parse parsed closed]
    · rw [addSources_rows]
      exact List.nil_append _

theorem loadSources_of_prepared? (x : Spelling p) {s : Store} (h : x.prepared? = some s) :
    s.loadSources = loadEach loadSpelled s (s.sources.entries.zip x.sources) := by
  refine loadEach_loadSource _ _ ?_ s
  rw [← x.sources_eq, ← (x.prepare_of_prepared? h).2, Table.rows, List.map_map]
  rfl

theorem exists_analyse (x : Spelling p) {loaded s : Store} (h : x.analysis? = some (loaded, s)) :
    ∃ s₀, p.prepare = .ok s₀ ∧ s₀.loadSources.1 = loaded ∧ p.analyse s₀ = .ok (s, []) := by
  unfold analysis? at h
  split at h
  · cases h
  · next s₀ hs₀ =>
    rw [← x.loadSources_of_prepared? hs₀] at h
    dsimp only at h
    split at h
    · next examined =>
      obtain ⟨rfl, rfl⟩ := Prod.mk.inj (Option.some.inj h)
      exact ⟨s₀, (x.prepare_of_prepared? hs₀).1, rfl, examined⟩
    · cases h

/-- What can be computed of a spelled-out project holds after its analysis. -/
theorem exists_of_any (x : Spelling p) {check : Store × Store → Bool}
    (h : x.analysis?.any check = true) :
    ∃ s₀ s, p.prepare = .ok s₀ ∧ p.analyse s₀ = .ok (s, []) ∧
      check (s₀.loadSources.1, s) = true := by
  obtain ⟨⟨loaded, s⟩, analysed, checked⟩ := (Option.any_eq_true _ _).mp h
  obtain ⟨s₀, prepared, rfl, hs⟩ := x.exists_analyse analysed
  exact ⟨s₀, s, prepared, hs, checked⟩

end Spelling

/-! ## Compiling -/

/-- The stages of a compilation that finds nothing wrong, as variables: see `stages_eq_ok`. -/
theorem stages_of_ok {prepared : Except Failure Store}
    {analyse : Store → Except Failure (Store × Diagnostics)}
    {transform : Store → Store × Nat × Diagnostics} {s₀ s : Store} (h₁ : prepared = .ok s₀)
    (h₂ : analyse s₀ = .ok (s, [])) (fine : (transform s).2.2 = []) :
    ∃ c : Compiled, (do
      let s ← prepared
      if false then throw Failure.cancelled
      let (s, found) ← analyse s
      if Diagnostics.hasErrors found then return ⟨s, found, s.stats 0⟩
      else
        let done := transform s
        return ⟨done.1, found ++ done.2.2, done.1.stats done.2.1⟩) = Except.ok c ∧
      c.diagnostics = [] ∧ c.store = (transform s).1 := by
  subst h₁
  refine ⟨⟨(transform s).1, [] ++ (transform s).2.2, (transform s).1.stats (transform s).2.1⟩,
    ?_, fine, rfl⟩
  change (analyse s₀ >>= _) = _
  rw [h₂]
  rfl

theorem Project.transform_diagnostics {p : Project} {s₀ s : Store} (prepared : p.prepare = .ok s₀)
    (analysed : p.analyse s₀ = .ok (s, [])) : (p.transform s).2.2 = [] := by
  obtain ⟨G, handed⟩ := Inlining.handed (handover?_of_analyse prepared analysed rfl)
  exact handed.inlineArguments_diagnostics

/-- A compilation whose analysis finds nothing wrong ends well. -/
theorem Project.compile_of_analyse {p : Project} {s₀ s : Store} (prepared : p.prepare = .ok s₀)
    (analysed : p.analyse s₀ = .ok (s, [])) : ∃ c, p.compile false = .ok c ∧ c.diagnostics = [] ∧
      c.store = (p.transform s).1 :=
  stages_of_ok prepared analysed (transform_diagnostics prepared analysed)

/-! ## A sample -/

/-- A fragment with an argument hands it on to another one. -/
def sample : Project where
  schema := "type Query \x7b user: User \x7d
    type User \x7b id: ID avatar(size: Int): String friends: [User] \x7d"
  sources := [{
    filepath := "sample.graphql"
    content := "fragment Sized on User @arguments(size: \x7b type: \"Int\", default: 5 \x7d) \x7b
        avatar(size: $size)
      \x7d
      fragment Card on User @arguments(size: \x7b type: \"Int\" \x7d) \x7b
        ...Sized @with(size: $size)
      \x7d
      query A \x7b user \x7b ...Card @with(size: 10) ...Sized \x7d \x7d
      query B \x7b user \x7b friends @list(name: \"Friends\") \x7b id \x7d \x7d \x7d" }]

set_option maxRecDepth 10000 in
def sampleSpelling : Spelling sample := ⟨_, [_], rfl, rfl⟩

namespace Inlining

/-- What the inliner does with the sample: its first step makes a clone, no clone takes the name of a
document, and the fragment that hands its argument on has no spread in common with a root. -/
structure SampleRun (s : Store) : Prop where
  handed : sample.handover? = some s
  makes : ∃ e ∈ encounters (start s), ∃ after task,
    visitSpread e.task e.before e.spread = .ok after ∧ after.tasks = e.before.tasks ++ [task]
  fresh : ∀ d ∈ s.documents.rows, d.name ∉ (finished s).clones
  template : ∃ row, s.documents.get? 2 = some row ∧ row.kind = .fragment ∧ s.variablesOf 2 ≠ []
  apart : ∀ spread ∈ spreads s 2, ∀ root ∈ rootDocuments s, spread ∉ spreads s root

/-- `SampleRun` to be computed, for a run of ten steps. -/
def sampleRuns (s : Store) : Bool :=
  ((start s).run 10).isDone &&
  (encounters (start s)).any (fun e =>
    match visitSpread e.task e.before e.spread with
    | .ok after => e.before.tasks.isEmpty && after.tasks.length == 1
    | .error _ => false) &&
  s.documents.rows.all (fun d => d.name ∉ ((start s).run 10).clones) &&
  (s.documents.get? 2).any (fun d => d.kind = .fragment && s.variablesOf 2 != []) &&
  (spreads s 2).all fun spread => (rootDocuments s).all fun root => spread ∉ spreads s root

set_option maxRecDepth 100000 in
theorem sampleRuns_analysis? :
    (sampleSpelling.analysis?.any fun e => sampleRuns (sample.rewrite e.2)) = true := by
  decide +kernel

theorem exists_sampleRun : ∃ s, SampleRun s := by
  obtain ⟨s₀, s, prepared, analysed, runs⟩ := sampleSpelling.exists_of_any sampleRuns_analysis?
  have handed := Project.handover?_of_analyse prepared analysed rfl
  simp only [sampleRuns, Bool.and_eq_true] at runs
  obtain ⟨⟨⟨⟨done, makes⟩, fresh⟩, template⟩, apart⟩ := runs
  refine ⟨_, handed, ?_, ?_, ?_, ?_⟩
  · obtain ⟨e, he, made⟩ := List.any_eq_true.mp makes
    split at made
    · next after visited =>
      obtain ⟨first, one⟩ := Bool.and_eq_true_iff.mp made
      obtain ⟨task, htask⟩ := List.length_eq_one_iff.mp (beq_iff_eq.mp one)
      refine ⟨e, he, after, task, visited, ?_⟩
      rw [List.isEmpty_iff.mp first, htask, List.nil_append]
    · cases made
  · intro d hd
    obtain ⟨G, fit⟩ := Inlining.handed handed
    rw [fit.finished_eq done]
    exact of_decide_eq_true (List.all_eq_true.mp fresh d hd)
  · obtain ⟨row, hrow, hkind⟩ := (Option.any_eq_true _ _).mp template
    simp only [Bool.and_eq_true, decide_eq_true_eq, bne_iff_ne] at hkind
    exact ⟨row, hrow, hkind⟩
  · intro spread hspread root hroot
    exact of_decide_eq_true (List.all_eq_true.mp (List.all_eq_true.mp apart spread hspread) root hroot)

end Inlining

end GraphDoc
