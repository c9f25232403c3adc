import GraphDoc.Proofs.Analysis
import GraphDoc.Proofs.FragmentArgument.Running
import GraphDoc.Proofs.Rewriting

/-!
# Stores handed to the inliner

`Project.handover?` is the store that a compilation hands to the inliner. It is fit for a run, so
every task of the run goes well, and `Inlining.encounters` lists the spreads that a step comes upon.
-/

set_option autoImplicit false

namespace GraphDoc

/-- The store that a compilation hands to the inliner, if it gets that far. -/
def Project.handover? (p : Project) : Option Store :=
  match p.prepare with
  | .error _ => none
  | .ok s =>
    match p.analyse s with
    | .error _ => none
    | .ok (s, found) => if Diagnostics.hasErrors found then none else some (p.rewrite s)

theorem Project.handover?_eq_some {p : Project} {s : Store} (h : p.handover? = some s) :
    ∃ s₀ s₁ found, p.prepare = .ok s₀ ∧ p.analyse s₀ = .ok (s₁, found) ∧
      Diagnostics.hasErrors found = false ∧ s = p.rewrite s₁ := by
  unfold handover? at h
  split at h
  · cases h
  · next s₀ prepared =>
    split at h
    · cases h
    · next s₁ found analysed =>
      obtain ⟨fine, hs⟩ := Option.ite_none_left_eq_some.mp h
      obtain rfl := Option.some.inj hs
      exact ⟨s₀, s₁, found, prepared, analysed, Bool.eq_false_iff.mpr fine, rfl⟩

theorem Project.handover?_of_analyse {p : Project} {s₀ s₁ : Store} {found : Diagnostics}
    (prepared : p.prepare = .ok s₀) (analysed : p.analyse s₀ = .ok (s₁, found))
    (fine : Diagnostics.hasErrors found = false) : p.handover? = some (p.rewrite s₁) := by
  unfold handover?
  rw [prepared]
  dsimp only
  rw [analysed]
  exact if_neg (Bool.eq_false_iff.mp fine)

/-- The stages of a compilation. They are variables here, since looking into the result of a known
stage makes the kernel run it. -/
theorem stages_eq_ok {prepared : Except Failure Store}
    {analyse : Store → Except Failure (Store × Diagnostics)}
    {transform : Store → Store × Nat × Diagnostics} {cancelled : Bool} {c : Compiled}
    (h : (do
      let s ← prepared
      if cancelled then throw Failure.cancelled
      let (s, found) ← analyse s
      if Diagnostics.hasErrors found then return ⟨s, found, s.stats 0⟩
      else
        let done := transform s
        return ⟨done.1, found ++ done.2.2, done.1.stats done.2.1⟩) = Except.ok c) :
    cancelled = false ∧ ∃ s₀ s₁ found, prepared = .ok s₀ ∧ analyse s₀ = .ok (s₁, found) ∧
      (Diagnostics.hasErrors found = true ∧ c = ⟨s₁, found, s₁.stats 0⟩ ∨
        Diagnostics.hasErrors found = false ∧ c.store = (transform s₁).1 ∧
          c.diagnostics = found ++ (transform s₁).2.2 ∧
          c.stats = c.store.stats (transform s₁).2.1) := by
  obtain ⟨s₀, hprepared, h⟩ := bind_eq_ok.mp h
  cases cancelled
  case true => cases h
  obtain ⟨⟨s₁, found⟩, analysed, h⟩ := bind_eq_ok.mp h
  refine ⟨rfl, s₀, s₁, found, hprepared, analysed, ?_⟩
  dsimp only at h
  split at h
  · next faulty => exact .inl ⟨faulty, (Except.ok.inj h).symm⟩
  · next fine =>
    obtain rfl := Except.ok.inj h
    exact .inr ⟨Bool.eq_false_iff.mpr fine, rfl, rfl, rfl⟩

theorem Project.compile_eq_ok {p : Project} {cancelled : Bool} {c : Compiled}
    (h : p.compile cancelled = .ok c) :
    cancelled = false ∧ ∃ s₀ s₁ found, p.prepare = .ok s₀ ∧ p.analyse s₀ = .ok (s₁, found) ∧
      (Diagnostics.hasErrors found = true ∧ c = ⟨s₁, found, s₁.stats 0⟩ ∨
        Diagnostics.hasErrors found = false ∧ c.store = (p.transform s₁).1 ∧
          c.diagnostics = found ++ (p.transform s₁).2.2 ∧
          c.stats = c.store.stats (p.transform s₁).2.1) :=
  @stages_eq_ok p.prepare p.analyse p.transform cancelled c h

/-- A compilation that finds nothing wrong gets to the inliner and ends with the inliner's store. -/
theorem Project.compile_clean {p : Project} {cancelled : Bool} {c : Compiled}
    (h : p.compile cancelled = .ok c) (clean : c.diagnostics = []) :
    ∃ s₀ s₁, p.prepare = .ok s₀ ∧ p.analyse s₀ = .ok (s₁, []) ∧
      c.store = (p.rewrite s₁).inlineArguments.1 := by
  obtain ⟨_, s₀, s₁, found, prepared, analysed, hc⟩ := compile_eq_ok h
  rcases hc with ⟨faulty, hc⟩ | ⟨_, hstore, hfound, _⟩
  · rw [hc] at clean
    obtain rfl : found = [] := clean
    cases faulty
  · obtain ⟨rfl, _⟩ := List.append_eq_nil_iff.mp (hfound.symm.trans clean)
    rw [Project.transform] at hstore
    exact ⟨s₀, s₁, prepared, analysed, hstore⟩

namespace Inlining

open Store

/-- The documents that borrow selections are those that list operations brought. -/
theorem Handed.of_ready {s : Store} {n : Nat} (ready : s.Ready (Beyond n)) :
    ∃ G, Handed G s := by
  refine ⟨fun d => Beyond n d ∧ d ≤ s.documents.issued, ?_, ?_, ?_⟩
  · refine ready.toSound.weaken (fun d hd hG => ⟨hG, Table.le_issued_of_contains hd⟩) ?_
    exact fun v hv hG => ready.declared v hv hG.1
  · intro o v ho hroot
    refine ready.written o v ?_ ho
    cases o <;> first | exact hroot.elim | exact fun hc => hc
  · intro d hd hG
    omega

theorem handed {p : Project} {s : Store} (h : p.handover? = some s) : ∃ G, Handed G s := by
  obtain ⟨s₀, s₁, found, prepared, analysed, _, rfl⟩ := Project.handover?_eq_some h
  exact Handed.of_ready (Project.rewrite_ready (Project.analyse_ready (Project.prepare_ready prepared).1
    (Project.prepare_ready prepared).2 analysed))

theorem outcome_store (w : Inlining) : (w.store, w.made, w.diagnostics).1 = w.store := rfl

theorem outcome_made (w : Inlining) : (w.store, w.made, w.diagnostics).2.1 = w.made := rfl

theorem outcome_diagnostics (w : Inlining) :
    (w.store, w.made, w.diagnostics).2.2 = w.diagnostics := rfl

theorem inlineArguments_store (s : Store) :
    s.inlineArguments.1 = (finished s).store := by
  unfold inlineArguments finished
  exact outcome_store _

theorem inlineArguments_made (s : Store) : s.inlineArguments.2.1 = (finished s).made := by
  unfold inlineArguments finished
  exact outcome_made _

theorem Handed.inlineArguments_diagnostics {G : Int → Prop} {s : Store} (h : Handed G s) :
    s.inlineArguments.2.2 = [] := by
  unfold inlineArguments
  exact (outcome_diagnostics _).trans h.ran.fine

/-! ## Encounters -/

/-- A spread that a task comes upon, with the progress so far. -/
structure Encounter where
  task : Task
  before : Progress
  spread : Int × String

/-- The spreads with the progress before each of them. -/
def meetings (t : Task) : List (Int × String) → Progress → List Encounter
  | [], _ => []
  | spread :: rest, p => ⟨t, p, spread⟩ ::
    match visitSpread t p spread with
    | .ok p => meetings t rest p
    | .error _ => []

/-- The spreads that the next step comes upon. -/
def encounters (w : Inlining) : List Encounter :=
  match w.next? with
  | none => []
  | some (t, w) =>
    match substituted w.store t with
    | .error _ => []
    | .ok u => meetings t (spreads u t.document) ⟨u, w.clones, w.null?, []⟩

variable {s₀ : Store} {G : Int → Prop} {t : Task}

/-- Where a task is when it comes upon a spread. -/
theorem Working.of_mem_meetings (hs₀ : s₀.Closed) {n : Nat} {e : Encounter}
    (l : List (Int × String)) {p : Progress} (hw : Working G s₀ t n l p) (he : e ∈ meetings t l p) :
    e.task = t ∧ ∃ post, Working G s₀ t n (e.spread :: post) e.before ∧
      visitSpreads t (e.spread :: post) e.before = visitSpreads t l p := by
  induction l generalizing p with
  | nil => cases he
  | cons spread rest ih =>
    obtain ⟨p₁, hvisit, hv⟩ := visitSpread_ok hw.held hw.due.scope spread
    rw [meetings, hvisit] at he
    rcases List.mem_cons.mp he with rfl | he
    · exact ⟨rfl, rest, hw, rfl⟩
    · obtain ⟨htask, post, hw', hvisits⟩ := ih (hw.visit hs₀ hv) he
      refine ⟨htask, post, hw', hvisits.trans ?_⟩
      simp only [visitSpreads, hvisit]

/-- Every encounter belongs to a step. -/
theorem Running.exists_meeting (hs₀ : s₀.Closed)
    (hG : ∀ d : Int, (s₀.documents.issued : Int) < d → ¬ G d) {w : Inlining} (h : Running G s₀ w)
    {e : Encounter} (he : e ∈ encounters w) : ∃ w₁ u p, Stepped G s₀ w e.task w₁ u p ∧
      e ∈ meetings e.task (spreads u e.task.document) ⟨u, w.clones, w.null?, []⟩ := by
  rw [encounters] at he
  split at he
  · cases he
  · next t w₁ hnext =>
    obtain ⟨u, p, hst⟩ := h.stepped hs₀ hG hnext
    have same : w₁.store = w.store ∧ w₁.clones = w.clones ∧ w₁.null? = w.null? := by
      rcases next?_cases hnext with ⟨_, _, rfl⟩ | ⟨_, _, _, rfl⟩ <;> exact ⟨rfl, rfl, rfl⟩
    obtain ⟨hstore, hclones, hnull⟩ := same
    rw [hstore, hclones, hnull, hst.performed.substituted] at he
    obtain ⟨rfl, _⟩ := Working.of_mem_meetings hs₀ _ hst.performed.start he
    exact ⟨w₁, u, p, hst, he⟩

theorem Running.of_mem_encounters (hs₀ : s₀.Closed)
    (hG : ∀ d : Int, (s₀.documents.issued : Int) < d → ¬ G d) {w : Inlining} (h : Running G s₀ w)
    {e : Encounter} (he : e ∈ encounters w) : ∃ w₁ u p post, Stepped G s₀ w e.task w₁ u p ∧
      Working G s₀ e.task u.documents.issued (e.spread :: post) e.before ∧
      visitSpreads e.task (e.spread :: post) e.before = (p, none) := by
  obtain ⟨w₁, u, p, hst, hm⟩ := h.exists_meeting hs₀ hG he
  obtain ⟨_, post, hw, hvisits⟩ := Working.of_mem_meetings hs₀ _ hst.performed.start hm
  exact ⟨w₁, u, p, post, hst, hw, hvisits.trans hst.performed.visited⟩

end Inlining

end GraphDoc
