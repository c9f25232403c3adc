import GraphDoc.Proofs.Untouched

/-!
# Integrity

Every store that a compilation goes through is sound: what a row refers to is there, and selections
do not nest deeper than they can be read. So no task of the inliner fails or is undone, and every
document can be printed, after any stage and at the end.
-/

set_option autoImplicit false

namespace GraphDoc

/-- Every document can be printed. -/
def Store.Prints (s : Store) : Prop :=
  ∀ d row, s.documents.get? d = some row → ∃ text, s.printDocument d = .ok text

namespace Inlining

open Store

/-- The next task, if there is one, goes well, and what it leaves is committed. -/
def Commits (w : Inlining) : Prop := ∀ t rest, w.next? = some (t, rest) →
  ∃ done : Progress, perform w.store w.clones w.null? t = (done, none) ∧
    w.store.commit (.ok (done.store, ())) = (done.store, .ok ()) ∧
    w.step.store = done.store ∧ w.step.diagnostics = w.diagnostics

variable {G : Int → Prop} {s : Store} {w : Inlining}

theorem Running.commits (hs : s.Closed) (hG : ∀ d : Int, (s.documents.issued : Int) < d → ¬ G d)
    (h : Running G s w) : w.Commits := by
  intro t rest hnext
  obtain ⟨u, done, stepped⟩ := h.stepped hs hG hnext
  have closed := (closed_iff _).mpr stepped.performed.finish.held.sound.closed
  have fine := (h.step hs hG).fine
  refine ⟨done, stepped.outcome, if_pos closed, ?_, fine.trans h.fine.symm⟩
  rw [stepped.step]

theorem Handed.commits (h : Handed G s) (n : Nat) : ((start s).run n).Commits :=
  (h.running.run h.sound.closed h.lasting n).commits h.sound.closed h.lasting

end Inlining

namespace Project

open Store

variable {p : Project} {s : Store}

theorem diagnostics_of_compile {cancelled : Bool} {c : Compiled}
    (h : p.compile cancelled = .ok c) :
    ∃ s₀ s, p.prepare = .ok s₀ ∧ p.analyse s₀ = .ok (s, c.diagnostics) := by
  obtain ⟨_, s₀, s, found, prepared, analysed, hc⟩ := compile_eq_ok h
  rcases hc with ⟨_, rfl⟩ | ⟨fine, _, hfound, _⟩
  · exact ⟨s₀, s, prepared, analysed⟩
  · obtain ⟨G, handed⟩ := Inlining.handed (handover?_of_analyse prepared analysed fine)
    rw [transform, handed.inlineArguments_diagnostics, List.append_nil] at hfound
    exact ⟨s₀, s, prepared, hfound ▸ analysed⟩

theorem store_of_handover {cancelled : Bool} {c : Compiled} (h : p.compile cancelled = .ok c)
    (handover : p.handover? = some s) : c.store = (Inlining.finished s).store := by
  obtain ⟨_, s₀, s₁, found, prepared, analysed, hc⟩ := compile_eq_ok h
  obtain ⟨t₀, t₁, found', prepared', analysed', fine', rfl⟩ := handover?_eq_some handover
  obtain rfl := Except.ok.inj (prepared.symm.trans prepared')
  obtain ⟨rfl, rfl⟩ := Prod.mk.inj (Except.ok.inj (analysed.symm.trans analysed'))
  rcases hc with ⟨faulty, _⟩ | ⟨_, hstore, _⟩
  · exact absurd (faulty.symm.trans fine') (by decide)
  · rw [hstore, transform, Inlining.inlineArguments_store]

/-- A compilation that gives a result keeps the integrity of its store. It reports nothing but what
the analysis found. If the inliner is reached, all its tasks are done, and each of them went well
and was committed. Every document of the last store, and of the stores before it, can be printed. -/
theorem integrity_kept {cancelled : Bool} {c : Compiled} (h : p.compile cancelled = .ok c) :
    (∃ s₀ s, p.prepare = .ok s₀ ∧ p.analyse s₀ = .ok (s, c.diagnostics)) ∧
    (∀ s, p.handover? = some s → c.store = (Inlining.finished s).store ∧
      (Inlining.finished s).isDone = true ∧ ∀ n, ((Inlining.start s).run n).Commits) ∧
    c.store.Closed ∧ c.store.Prints ∧
    ∀ stage s, p.After stage s → s.Closed ∧ s.Prints := by
  have kept : ∀ stage s, p.After stage s → s.Closed ∧ s.Prints := by
    intro stage s hs
    obtain ⟨G, sound⟩ := hs.sound
    exact ⟨sound.closed, fun d row hrow => sound.printDocument_ok hrow⟩
  have last : c.store.Closed ∧ c.store.Prints := by
    rcases After.of_compile h with hc | hc
    · exact kept _ _ hc
    · exact kept _ _ hc
  refine ⟨diagnostics_of_compile h, fun s handover => ?_, last.1, last.2, kept⟩
  obtain ⟨G, handed⟩ := Inlining.handed handover
  exact ⟨store_of_handover h handover, handed.isDone, handed.commits⟩

/-- The sample keeps the integrity of its store: its first task, which makes a clone, is committed,
and its template is still there to be printed. -/
theorem sample_integrity_kept : ∃ c s row text, sample.compile false = .ok c ∧
    sample.handover? = some s ∧ (Inlining.start s).next? ≠ none ∧
    (Inlining.start s).Commits ∧ c.store.documents.get? 2 = some row ∧
    c.store.printDocument 2 = .ok text := by
  obtain ⟨s₀, s₁, prepared, analysed, -⟩ :=
    sampleSpelling.exists_of_any Inlining.sampleRuns_analysis?
  obtain ⟨c, compiled, -⟩ := compile_of_analyse prepared analysed
  obtain ⟨s, run⟩ := Inlining.exists_sampleRun
  obtain ⟨-, inlined, -, printed, -⟩ := integrity_kept compiled
  obtain ⟨hstore, -, commits⟩ := inlined s run.handed
  obtain ⟨row, hrow, -⟩ := run.template
  obtain ⟨G, handed⟩ := Inlining.handed run.handed
  have hrow : c.store.documents.get? 2 = some row := by
    rw [hstore]
    exact handed.ran.held.advances.documents.get?_of_get? hrow
  obtain ⟨text, printed⟩ := printed 2 row hrow
  refine ⟨c, s, row, text, compiled, run.handed, fun none => ?_, commits 0, hrow, printed⟩
  obtain ⟨e, he, -⟩ := run.makes
  rw [Inlining.encounters, none] at he
  cases he

end Project

end GraphDoc
