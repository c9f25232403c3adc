import GraphDoc.Proofs.FragmentArgument.Origins
import GraphDoc.Proofs.Spelling

/-!
# Spreads after inlining

Once the inliner is done no spread in an operation, in a fragment without arguments or in a clone
leads to a template. Along the run each of these documents is either still on the work list or all
of its spreads are settled.
-/

set_option autoImplicit false

namespace GraphDoc.Inlining

open Store Table

variable {s s₀ : Store} {G : Int → Prop} {t : Task} {p p' : Progress} {spread : Int × String}

/-- The spreads of a document lead to no template. -/
def Cleared (s : Store) (d : Int) : Prop := ∀ e ∈ spreads s d, s.Settled e.2

/-- No document of the store bears one of the names. -/
def Fresh (s : Store) (names : List String) : Prop := ∀ d ∈ s.documents.rows, d.name ∉ names

theorem settled_of_fresh (ha : Advances s₀ s) (hs₀ : s₀.Closed) {name : String}
    (fresh : ∀ d ∈ s₀.documents.rows, d.name ≠ name) : s.Settled name := by
  intro id row hf
  rcases ha.documents.find?_or hf with hf | ⟨hlt, _⟩
  · obtain ⟨hrow, hname, _⟩ := findDocument_eq_some hf
    exact absurd hname (fresh row (mem_rows_of_get? hrow))
  · rw [ha.variablesOf]
    exact hs₀.variablesOf_eq_nil hlt

/-! ## A visit -/

/-- A selection is a spread under one name only. -/
theorem IsSpread.name_eq (hx : IsSpread s spread) {d : Int} {e : Int × String}
    (he : e ∈ spreads s d) (heq : e.1 = spread.1) : e.2 = spread.2 := by
  obtain ⟨⟨row, hrow, _, hname⟩, _⟩ := mem_spreads.mp he
  obtain ⟨row', hrow', _, hname'⟩ := hx
  rw [heq] at hrow
  cases hrow.symm.trans hrow'
  exact hname.symm.trans hname'

/-- The name of a selection after a visit: as before, or that of a clone if it is the spread. -/
theorem Visit.name (hv : Visit G t p spread p') {x : Int} {row' : SelectionRow}
    (hc : p.store.selections.contains x) (hrow' : p'.store.selections.get? x = some row') :
    ∃ row, p.store.selections.get? x = some row ∧ row'.kind = row.kind ∧
      (row'.name = row.name ∧ (x = spread.1 → p.store.Settled spread.2) ∨
        x = spread.1 ∧ ¬ p.store.Settled spread.2 ∧ row'.name ∈ p'.clones) := by
  obtain ⟨row, hrow⟩ := contains_iff.mp hc
  refine ⟨row, hrow, ?_⟩
  -- What renaming the spread does to the row.
  have renamed : ∀ {name : String} {r : SelectionRow} {target : Int} {found : DocumentRow},
      p.store.findDocument spread.2 .fragment = some (target, found) →
      p.store.variablesOf target ≠ [] →
      (renameSelection p.store spread.1 name).selections.get? x = some r → name ∈ p'.clones →
      r.kind = row.kind ∧ (r.name = row.name ∧ (x = spread.1 → p.store.Settled spread.2) ∨
        x = spread.1 ∧ ¬ p.store.Settled spread.2 ∧ r.name ∈ p'.clones) := by
    intro name r target found hfound declares hr hname
    rw [get?_renameSelection, hrow] at hr
    split at hr
    · next he =>
      obtain rfl := Option.some.inj hr
      exact ⟨rfl, .inr ⟨he, fun hsettled => declares (hsettled _ _ hfound), hname⟩⟩
    · next hne =>
      obtain rfl := Option.some.inj hr
      exact ⟨rfl, .inl ⟨rfl, fun he => absurd he hne⟩⟩
  cases hv with
  | settled hsettled =>
    obtain rfl := Option.some.inj (hrow.symm.trans hrow')
    exact ⟨rfl, .inl ⟨rfl, fun _ => hsettled⟩⟩
  | led found declares _ known => exact renamed found declares hrow' known
  | @made target drow name found declares named new s₁ s₂ ids null? pairs cloned bound =>
    have hle : x ≤ p.store.selections.issued := le_issued hrow
    have hrow₁ : s₁.selections.get? x = some row' := by
      rw [bound.same] at hrow'
      exact hrow'
    rw [cloned.copying.selections.get?_of_le hle] at hrow₁
    exact renamed found declares hrow₁ (List.mem_append_right _ (List.mem_singleton.mpr rfl))

/-- The spreads of a document after a visit are those before it. -/
theorem Visit.spreads (hv : Visit G t p spread p') (h : Held G s₀ p.clones p.null? p.store)
    (hx : IsSpread p.store spread) {d : Int} (hd : p.store.documents.contains d)
    {e : Int × String} (he : e ∈ Inlining.spreads p'.store d) :
    ∃ name, (e.1, name) ∈ Inlining.spreads p.store d ∧
      (e.2 = name ∧ (e.1 = spread.1 → p.store.Settled spread.2) ∨
        e.1 = spread.1 ∧ ¬ p.store.Settled spread.2 ∧ e.2 ∈ p'.clones) := by
  obtain ⟨⟨row', hrow', hkind', hname'⟩, q', hq', hdoc, hchild⟩ := mem_spreads.mp he
  obtain ⟨q, hq, _, _, same | ⟨hnew, _⟩⟩ := hv.origin h hx hq'
  · subst same
    have hc : p.store.selections.contains e.1 :=
      hchild ▸ (h.sound.closed.placements q' hq).2.1
    obtain ⟨row, hrow, hkind, hname⟩ := hv.name hc hrow'
    refine ⟨row.name, mem_spreads.mpr ⟨⟨row, hrow, hkind ▸ hkind', rfl⟩, q', hq, hdoc, hchild⟩, ?_⟩
    rw [← hname']
    exact hname
  · have hle := le_issued_of_contains hd
    have := p.store.documents.issued_lt_nextId
    omega

theorem Visit.settles (hv : Visit G t p spread p') (hs₀ : s₀.Closed)
    (h : Held G s₀ p.clones p.null? p.store) (hx : IsSpread p.store spread)
    (fresh : Fresh s₀ p'.clones) {d : Int}
    (hd : p.store.documents.contains d) {e : Int × String}
    (he : e ∈ Inlining.spreads p'.store d) :
    p'.store.Settled e.2 ∨ e ∈ Inlining.spreads p.store d ∧ e.1 ≠ spread.1 ∧
      ¬ p.store.Settled e.2 := by
  have ha := hv.advances h
  obtain ⟨name, hm, ⟨rfl, hsame⟩ | ⟨_, _, hclone⟩⟩ := hv.spreads h hx hd he
  · by_cases hsettled : p.store.Settled e.2
    · exact .inl (ha.settled h.sound.closed hsettled)
    · refine .inr ⟨hm, fun heq => hsettled ?_, hsettled⟩
      rw [hx.name_eq hm heq]
      exact hsame heq
  · refine .inl (settled_of_fresh (h.advances.trans ha) hs₀ fun row hrow hname => ?_)
    exact fresh row hrow (hname ▸ hclone)

theorem Visit.cleared (hv : Visit G t p spread p') (hs₀ : s₀.Closed)
    (h : Held G s₀ p.clones p.null? p.store) (hx : IsSpread p.store spread)
    (fresh : Fresh s₀ p'.clones) {d : Int}
    (hd : p.store.documents.contains d) (hc : Cleared p.store d) : Cleared p'.store d := by
  intro e he
  rcases hv.settles hs₀ h hx fresh hd he with hsettled | ⟨hm, _, hnot⟩
  · exact hsettled
  · exact absurd (hc e hm) hnot

/-! ## A task -/

/-- The work on a task that began with `s` and has the spreads in `rest` still to visit: what was
cleared stays so, the spreads that were visited are settled, and every new document has a task. -/
structure Clearing (s : Store) (t : Task) (rest : List (Int × String)) (p : Progress) : Prop where
  kept : ∀ d, s.documents.contains d = true → p.store.documents.contains d = true ∧
    (Cleared s d → Cleared p.store d)
  here : ∀ e ∈ spreads p.store t.document, p.store.Settled e.2 ∨ e ∈ rest
  tasks : ∀ d, p.store.documents.contains d = true → s.documents.contains d = true ∨
    ∃ task ∈ p.tasks, task.document = d

theorem clearing_of_substituted {d : Int} {σ : String → Option Value} {u : Store}
    (hu : Substituted G s d σ u) (hs : s.Sound G) (clones : List String) (null? : Option Int) :
    Clearing s t (spreads u t.document) ⟨u, clones, null?, []⟩ := by
  have ha := hu.advances hs
  have hdocuments : u.documents = s.documents := by rw [hu.rest]
  refine ⟨fun d hd => ⟨ha.documents.contains hd, fun hc e he => ?_⟩, fun e he => .inr he,
    fun d hd => .inl (hdocuments ▸ hd)⟩
  have hspreads : spreads u d = spreads s d := by
    rw [hu.rest]
    rfl
  rw [hspreads] at he
  exact ha.settled hs.closed (hc e he)

theorem Clearing.visit {rest : List (Int × String)} (hc : Clearing s t (spread :: rest) p)
    (hv : Visit G t p spread p') (hs₀ : s₀.Closed) (h : Held G s₀ p.clones p.null? p.store)
    (hx : IsSpread p.store spread) (ht : p.store.documents.contains t.document)
    (fresh : Fresh s₀ p'.clones) : Clearing s t rest p' := by
  refine ⟨fun d hd => ?_, fun e he => ?_, fun d hd => ?_⟩
  · obtain ⟨hd', hkept⟩ := hc.kept d hd
    exact ⟨(hv.advances h).documents.contains hd',
      fun hclear => hv.cleared hs₀ h hx fresh hd' (hkept hclear)⟩
  · rcases hv.settles hs₀ h hx fresh ht he with hsettled | ⟨hm, hne, hnot⟩
    · exact .inl hsettled
    · rcases List.mem_cons.mp ((hc.here e hm).resolve_left hnot) with rfl | hrest
      · exact absurd rfl hne
      · exact .inr hrest
  · rcases hv.contains hd with hd | ⟨_, task, hm, hdoc⟩
    · refine (hc.tasks d hd).imp_right ?_
      rintro ⟨task, hm, hdoc⟩
      exact ⟨task, hv.mem_tasks hm, hdoc⟩
    · exact .inr ⟨task, hm, hdoc⟩

theorem Performed.clearing {clones : List String} {null? : Option Int} {u : Store}
    (h : Performed G s₀ t s clones null? u p) (hs₀ : s₀.Closed) (hs : s.Sound G) :
    (∀ name ∈ clones, name ∈ p.clones) ∧ (Fresh s₀ p.clones → Clearing s t [] p) := by
  refine h.visits.induction (P := fun rest q => (∀ name ∈ clones, name ∈ q.clones) ∧
    (Fresh s₀ q.clones → Clearing s t rest q)) hs₀ h.start
    ⟨fun _ hn => hn, fun _ => clearing_of_substituted h.opened hs clones null?⟩ ?_
  rintro spread rest q q' hw hv ⟨hnames, hclear⟩
  refine ⟨fun name hn => hv.mem_clones (hnames name hn), fun fresh => ?_⟩
  have earlier : Fresh s₀ q.clones := fun d hd hn => fresh d hd (hv.mem_clones hn)
  exact (hclear earlier).visit hv hs₀ hw.held (hw.spreads spread List.mem_cons_self).1
    hw.due.here fresh

/-! ## The run -/

/-- The document is on the work list. -/
def Pending (w : Inlining) (d : Int) : Prop :=
  ∃ t, (t ∈ w.followUps ∨ t ∈ w.roots) ∧ t.document = d

theorem not_pending_of_isDone {w : Inlining} (h : w.isDone) (d : Int) : ¬ Pending w d := by
  rw [Inlining.isDone, Bool.and_eq_true, List.isEmpty_iff, List.isEmpty_iff] at h
  rintro ⟨t, hm, _⟩
  rw [h.1, h.2] at hm
  exact hm.elim List.not_mem_nil List.not_mem_nil

/-- Roots and clones are on the work list or cleared, unless a clone took a name that was there. -/
def Covered (s₀ : Store) (w : Inlining) : Prop :=
  Fresh s₀ w.clones → ∀ d, w.store.documents.contains d = true →
    (d ∈ rootDocuments s₀ ∨ (s₀.documents.issued : Int) < d) → Pending w d ∨ Cleared w.store d

theorem covered_start (s : Store) : Covered s (start s) := by
  rintro - d hd (hroot | hnew)
  · exact .inl ⟨⟨d, []⟩, .inr (List.mem_map.mpr ⟨d, hroot, rfl⟩), rfl⟩
  · have : d ≤ s.documents.issued := le_issued_of_contains hd
    omega

theorem Stepped.covered {w w₁ : Inlining} {u : Store} (hst : Stepped G s₀ w t w₁ u p)
    (hs₀ : s₀.Closed) (hs : w.store.Sound G) (hw : Covered s₀ w) : Covered s₀ w.step := by
  obtain ⟨hnames, hclear⟩ := hst.performed.clearing hs₀ hs
  rw [hst.step]
  intro fresh d hd hkind
  have hclear := hclear fresh
  rcases hclear.tasks d hd with hold | ⟨task, hm, hdoc⟩
  · have earlier : Fresh s₀ w.clones := fun row hrow hn => fresh row hrow (hnames _ hn)
    rcases hw earlier d hold hkind with ⟨t', hm, rfl⟩ | hc
    · rcases (waiting_iff_of_next? hst.next).mp hm with rfl | hm | hm
      · exact .inr fun e he => (hclear.here e he).resolve_right List.not_mem_nil
      · exact .inl ⟨t', .inl (List.mem_append_left _ hm), rfl⟩
      · exact .inl ⟨t', .inr hm, rfl⟩
    · exact .inr ((hclear.kept d hold).2 hc)
  · exact .inl ⟨task, .inl (List.mem_append_right _ hm), hdoc⟩

theorem Handed.cleared (h : Handed G s) (fresh : Fresh s (finished s).clones) {d : Int}
    (hd : (finished s).store.documents.contains d)
    (hkind : d ∈ rootDocuments s ∨ (s.documents.issued : Int) < d) :
    Cleared (finished s).store d := by
  have covered : Covered s (finished s) := by
    refine (h.running.run_induction h.sound.closed h.lasting (covered_start s) ?_ _).2
    intro w hw hP
    cases hnext : w.next? with
    | none => rwa [Inlining.step, hnext]
    | some e =>
      obtain ⟨u, p, hst⟩ := hw.stepped h.sound.closed h.lasting hnext
      exact hst.covered h.sound.closed hw.held.sound hP
  exact (covered fresh d hd hkind).resolve_left (not_pending_of_isDone h.isDone d)

theorem mem_rootDocuments_of_advances {s' : Store} (ha : Advances s s') {d : Int}
    (hd : d ∈ rootDocuments s') : d ∈ rootDocuments s ∨ (s.documents.issued : Int) < d := by
  obtain ⟨row, hrow, hroot⟩ := mem_rootDocuments.mp hd
  by_cases hle : d ≤ s.documents.issued
  · rw [ha.documents.get?_of_le hle] at hrow
    rw [ha.variablesOf] at hroot
    exact .inl (mem_rootDocuments.mpr ⟨row, hrow, hroot⟩)
  · exact .inr (by omega)

/-! ## A second run -/

theorem visitSpread_settled (h : p.store.Settled spread.2) : visitSpread t p spread = .ok p := by
  cases found : p.store.findDocument spread.2 .fragment with
  | none =>
    simp only [visitSpread, found]
    rfl
  | some entry =>
    simp only [visitSpread, found, h entry.1 entry.2 found]
    rfl

theorem visitSpreads_settled (l : List (Int × String)) (h : ∀ e ∈ l, p.store.Settled e.2) :
    visitSpreads t l p = (p, none) := by
  induction l with
  | nil => rfl
  | cons spread rest ih =>
    rw [visitSpreads, visitSpread_settled (h spread List.mem_cons_self)]
    exact ih fun e he => h e (List.mem_cons_of_mem _ he)

/-- A run that finds nothing to do. -/
structure Idle (s : Store) (w : Inlining) : Prop where
  store : w.store = s
  followUps : w.followUps = []
  made : w.made = 0
  fine : w.diagnostics = []
  roots : ∀ t ∈ w.roots, t.scope = [] ∧ s.documents.contains t.document = true ∧
    Cleared s t.document

theorem Idle.step {w : Inlining} (h : Idle s w) (hs : s.Closed) : Idle s w.step := by
  cases hnext : w.next? with
  | none => rwa [Inlining.step, hnext]
  | some e =>
    obtain ⟨t, w₁⟩ := e
    rcases next?_cases hnext with ⟨rest, hf, _⟩ | ⟨_, rest, hr, rfl⟩
    · cases hf.symm.trans h.followUps
    · obtain ⟨hscope, hhere, hclear⟩ := h.roots t (hr ▸ List.mem_cons_self)
      obtain ⟨row, hrow⟩ := contains_iff.mp hhere
      have hperform : perform w.store w.clones w.null? t =
          (⟨w.store, w.clones, w.null?, []⟩, none) := by
        rw [h.store]
        simp only [perform, hrow, substituted, hscope]
        exact visitSpreads_settled _ hclear
      have hclosed : w.store.Closed := h.store ▸ hs
      rw [Inlining.step, hnext]
      simp only
      rw [hperform, settle_ok _ t hclosed]
      exact ⟨h.store, by simp [h.followUps], by simp [h.made], h.fine,
        fun t' hm => h.roots t' (hr ▸ List.mem_cons_of_mem _ hm)⟩

theorem Idle.run {w : Inlining} (h : Idle s w) (hs : s.Closed) (n : Nat) : Idle s (w.run n) := by
  induction n with
  | zero => exact h
  | succ n ih =>
    rw [run_succ]
    exact ih.step hs

theorem Idle.outcome {w : Inlining} (h : Idle s w) :
    (w.store, w.made, w.diagnostics) = (s, 0, []) := by
  rw [h.store, h.made, h.fine]

theorem inlineArguments_of_cleared (hs : s.Closed) (h : ∀ d ∈ rootDocuments s, Cleared s d) :
    s.inlineArguments = (s, 0, []) := by
  have idle : Idle s (start s) := by
    refine ⟨rfl, rfl, rfl, rfl, fun t ht => ?_⟩
    obtain ⟨d, hd, rfl⟩ := List.mem_map.mp ht
    obtain ⟨row, hrow, _⟩ := mem_rootDocuments.mp hd
    exact ⟨rfl, contains_of_get? hrow, h d hd⟩
  unfold inlineArguments
  exact (idle.run hs _).outcome

/-- Unless a clone takes a name that was there before, no spread in an operation, in a fragment
without arguments or in a clone leads to a template after a run, and a second run does nothing. -/
theorem no_template_is_left {project : Project} (h : project.handover? = some s)
    (fresh : ∀ d ∈ s.documents.rows, d.name ∉ (finished s).clones) :
    let after := s.inlineArguments.1
    (∀ d row, after.documents.get? d = some row →
      (row.kind ≠ .fragment ∨ after.variablesOf d = [] ∨ (s.documents.issued : Int) < d) →
      ∀ spread ∈ spreads after d, ∀ target found,
        after.findDocument spread.2 .fragment = some (target, found) →
        after.variablesOf target = []) ∧
    after.inlineArguments = (after, 0, []) := by
  obtain ⟨G, hs⟩ := handed h
  have running := hs.ran
  rw [inlineArguments_store]
  refine ⟨fun d row hrow hkind => hs.cleared fresh (Table.contains_of_get? hrow) ?_, ?_⟩
  · rcases hkind with hk | hv | hnew
    · exact mem_rootDocuments_of_advances running.held.advances
        (mem_rootDocuments.mpr ⟨row, hrow, .inl hk⟩)
    · exact mem_rootDocuments_of_advances running.held.advances
        (mem_rootDocuments.mpr ⟨row, hrow, .inr hv⟩)
    · exact .inr hnew
  · refine inlineArguments_of_cleared running.held.sound.closed fun d hd => ?_
    obtain ⟨row, hrow, _⟩ := mem_rootDocuments.mp hd
    exact hs.cleared fresh (Table.contains_of_get? hrow)
      (mem_rootDocuments_of_advances running.held.advances hd)

/-- No spread of the sample leads to a template after a run, and a second run does nothing. -/
theorem sample_no_template_is_left : ∃ s, sample.handover? = some s ∧
    (∀ d ∈ s.documents.rows, d.name ∉ (finished s).clones) ∧
    s.inlineArguments.1.inlineArguments = (s.inlineArguments.1, 0, []) := by
  obtain ⟨s, run⟩ := exists_sampleRun
  exact ⟨s, run.handed, run.fresh, (no_template_is_left run.handed run.fresh).2⟩

end GraphDoc.Inlining
