import GraphDoc.Proofs.FragmentArgument.Visiting
import Mathlib.Data.List.Perm.Subperm

/-!
# Runs of the inliner

A task substitutes its scope and visits the spreads of its document; `Inlining.perform` never fails.
`Inlining.Running` holds of every state that `Inlining.run` goes through, and each step brings the
run nearer to its end.
-/

set_option autoImplicit false

namespace GraphDoc

open Table

mutual

theorem Value.substitute_none : (v : Value) → v.substitute (fun _ => none) = v
  | .node kind raw children => by
    rw [Value.substitute, Value.substituteAll_none children]
    split <;> rfl

theorem Value.substituteAll_none : (children : List (Option String × Value)) →
    Value.substituteAll (fun _ => none) children = children
  | [] => by rw [Value.substituteAll]
  | (name?, v) :: rest => by
    rw [Value.substituteAll, Value.substitute_none v, Value.substituteAll_none rest]

end

namespace Store

variable {s u : Store} {G : Int → Prop} {d : Int} {σ : String → Option Value}

/-! ## Substitution seen from outside -/

theorem Sound.substituted_nil (hs : s.Sound G) (d : Int) : Substituted G s d (s.meaning []) s where
  sound := hs
  rest := rfl
  inner := fun p _ _ => by
    have : s.meaning [] = fun _ => none := rfl
    simp only [this, Value.substitute_none, List.map_id']
  outer := fun _ _ => rfl
  isOwned := fun _ _ => rfl
  kept := fun _ hv _ => ⟨hv, rfl⟩
  owns := fun _ _ ho _ => ho

theorem Substituted.nodes (h : Substituted G s d σ u) (hs : s.Sound G) (site : Site) (x : Int) :
    u.nodes site x = s.nodes site x := by
  have hdirectives : u.directives site = s.directives site := by
    rw [h.rest]
    cases site <;> rfl
  rw [Store.nodes, Store.nodes, hdirectives]
  refine List.map_congr_left fun use _ => ?_
  rw [nodeOf, nodeOf, hdirectives]
  congr 1
  refine List.map_congr_left fun a ha => ?_
  have ho := owns_directive (get?_of_mem (List.mem_filter.mp ha).1)
  have rooted : s.Rooted a.2.value := hs.rooted ho trivial
  rw [(rooted.substituted h).2]

theorem Substituted.advances (h : Substituted G s d σ u) (hs : s.Sound G) : Advances s u where
  documents := by
    rw [h.rest]
    exact .refl
  declarations := by rw [h.rest]
  schema := by rw [h.rest]
  rooted := fun _ hv => hv.substituted h
  nodes := fun d _ => h.nodes hs .document d

theorem Substituted.placed (h : Substituted G s d σ u) (c : Int) : u.placed c = s.placed c := by
  rw [h.rest]
  rfl

/-- The document itself has its arguments substituted. -/
theorem Substituted.tree (h : Substituted G s d σ u) (hs : s.Sound G) :
    u.selectionTree d = (s.selectionTree d).map (SelectionNode.rewriteAll (fun x => x)
      (fun _ row => row) (Value.substitute σ)) := by
  have tr : Translates s u (fun x => x) (fun _ row => row) (Value.substitute σ) (s.placed d)
      (u.placed d) := by
    refine ⟨⟨fun e => e, by rw [h.placed, List.map_id'], by simp⟩, fun _ _ _ _ _ _ he => he,
      fun e he => ?_, fun e _ => h.nodes hs .selection _⟩
    obtain ⟨hp, hd, _⟩ := mem_placed he
    exact h.inner e.1 hp hd
  exact tr.selectionTree hs h.sound

/-- What stands on a selection of another document stays, if one of the two is a clone. -/
theorem Substituted.unmoved (h : Substituted G s d σ u) (hs : s.Sound G) {n : Nat}
    (hx : s.Exclusive n) {c : Int} (hc : (n : Int) < c ∨ (n : Int) < d) (hne : c ≠ d) :
    u.selectionTree c = s.selectionTree c := by
  have tr : Translates s u (fun x => x) (fun _ row => row) (fun v => v) (s.placed c)
      (u.placed c) := by
    refine ⟨⟨fun e => e, by rw [h.placed, List.map_id'], by simp⟩, fun _ _ _ _ _ _ he => he,
      fun e he => ?_, fun e _ => h.nodes hs .selection _⟩
    obtain ⟨hp, hd, hrow⟩ := mem_placed he
    rw [List.map_id']
    by_cases hin : ∃ q ∈ s.placements.rows, q.document = d ∧ q.child = e.1.child
    · -- A shared selection has no arguments.
      obtain ⟨q, hq, hqd, hqc⟩ := hin
      have hnone : s.arguments e.1.child = [] := by
        have ho : s.isOwned e.1.child e.2 = false := by
          refine Bool.eq_false_iff.mpr fun ho => hne ?_
          rw [← hd, ← hqd]
          rcases hc with hc | hc
          · exact (hx e.1 hp (hd ▸ hc) e.2 hrow ho q hq hqc).symm
          · exact hx q hq (hqd ▸ hc) e.2 (hqc ▸ hrow) (hqc ▸ ho) e.1 hp hqc.symm
        simp only [Store.isOwned, Bool.or_eq_false_iff, any_argument, Bool.not_eq_false',
          List.isEmpty_iff] at ho
        rw [Store.arguments, ho.1.2, List.map_nil]
      rw [← hqc, h.inner q hq hqd, hqc, hnone, List.map_nil]
    · exact h.outer _ fun q hq hqd hqc => hin ⟨q, hq, hqd, hqc⟩
  exact tr.selectionTree_eq hs h.sound

end Store

namespace Inlining

open Store

variable {s s₀ u : Store} {G : Int → Prop} {t : Task} {p p' p'' : Progress}
  {spread : Int × String} {clones : List String} {null? : Option Int}

theorem Held.substituted {d : Int} {σ : String → Option Value} (h : Held G s₀ clones null? s)
    (hu : Substituted G s d σ u) : Held G s₀ clones null? u := by
  have ha := hu.advances h.sound
  refine { h with
    sound := hu.sound, advances := h.advances.trans ha, named := ?_, exclusive := ?_
    null := fun v hv => ?_, written := fun o v ho hroot => ?_ }
  · rw [hu.rest]
    exact h.named
  · intro q hq hd row hrow ho
    have hplacements : u.placements = s.placements := by rw [hu.rest]
    have hselections : u.selections = s.selections := by rw [hu.rest]
    rw [hplacements] at hq ⊢
    rw [hselections] at hrow
    rw [hu.isOwned] at ho
    exact h.exclusive q hq hd row hrow ho
  · obtain ⟨hroot, hread⟩ := h.null v hv
    obtain ⟨hroot', hread'⟩ := ha.rooted v hroot
    exact ⟨hroot', hread'.trans hread⟩
  · have ho : s.owns o = some v := by
      rw [hu.rest] at ho
      cases o with
      | directive site id => cases site <;> exact ho
      | default id => exact ho
      | _ => exact hroot.elim
    rw [(ha.rooted v (h.sound.rooted ho hroot)).2]
    exact h.written o v ho hroot

/-! ## Visiting all spreads -/

/-- One visit after the other. -/
inductive Visits (G : Int → Prop) (t : Task) : List (Int × String) → Progress → Progress → Prop where
  | nil (p : Progress) : Visits G t [] p p
  | cons {spread : Int × String} {rest : List (Int × String)} {p p' p'' : Progress}
      (first : Visit G t p spread p') (later : Visits G t rest p' p'') :
      Visits G t (spread :: rest) p p''

/-- A task under way whose spreads in `rest` are still to be visited. -/
structure Working (G : Int → Prop) (s₀ : Store) (t : Task) (n : Nat) (rest : List (Int × String))
    (p : Progress) : Prop where
  held : Held G s₀ p.clones p.null? p.store
  due : Due s₀ p.store t
  spreads : ∀ e ∈ rest, IsSpread p.store e ∧
    ∃ q ∈ p.store.placements.rows, q.document = t.document ∧ q.child = e.1
  distinct : rest.Pairwise fun a b => a.1 ≠ b.1
  least : s₀.documents.issued ≤ n ∧ n ≤ p.store.documents.issued
  tasks : ∀ task ∈ p.tasks, Due s₀ p.store task ∧ (n : Int) < task.document
  separate : (p.tasks.map (·.document)).Nodup

theorem Visit.isSpread (hv : Visit G t p spread p') {e : Int × String} (he : IsSpread p.store e)
    (hne : e.1 ≠ spread.1) : IsSpread p'.store e := by
  obtain ⟨row, hrow, hrest⟩ := he
  cases hv with
  | settled => exact ⟨row, hrow, hrest⟩
  | led => exact ⟨row, (get?_renameSelection ..).trans ((if_neg hne).trans hrow), hrest⟩
  | made _ _ _ _ cloned bound =>
    have hrow₂ := cloned.copying.selections.get?_of_get?
      ((get?_renameSelection ..).trans ((if_neg hne).trans hrow))
    exact ⟨row, bound.copying.selections.get?_of_get? hrow₂, hrest⟩

theorem Visit.mem_clones (hv : Visit G t p spread p') {name : String} (hn : name ∈ p.clones) :
    name ∈ p'.clones := by
  cases hv with
  | settled => exact hn
  | led => exact hn
  | made => exact List.mem_append_left _ hn

/-- The documents after a visit: the old ones, and perhaps that of a new task. -/
theorem Visit.contains (hv : Visit G t p spread p') {d : Int}
    (hd : p'.store.documents.contains d) : p.store.documents.contains d ∨
      d = p.store.documents.nextId ∧ ∃ task ∈ p'.tasks, task.document = d := by
  cases hv with
  | settled => exact .inl hd
  | led => exact .inl hd
  | made _ _ _ _ cloned bound =>
    rw [bound.same, cloned.documents] at hd
    obtain ⟨row, hrow⟩ := contains_iff.mp hd
    rw [get?_push] at hrow
    split at hrow
    · next he => exact .inr ⟨he, _, List.mem_append_right _ (List.mem_singleton.mpr rfl), he.symm⟩
    · exact .inl (contains_of_get? hrow)

theorem Visit.placements (hv : Visit G t p spread p') {q : Placement}
    (hq : q ∈ p.store.placements.rows) : q ∈ p'.store.placements.rows := by
  cases hv with
  | settled => exact hq
  | led => exact hq
  | made _ _ _ _ cloned bound =>
    exact bound.copying.placements.mem_rows (cloned.copying.placements.mem_rows hq)

/-- The tasks of a visit: those that were there, and perhaps one for the next document. -/
theorem Visit.tasks (hv : Visit G t p spread p') : p'.tasks = p.tasks ∨
    ∃ task, p'.tasks = p.tasks ++ [task] := by
  cases hv with
  | settled => exact .inl rfl
  | led => exact .inl rfl
  | made => exact .inr ⟨_, rfl⟩

theorem Visit.mem_tasks (hv : Visit G t p spread p') {task : Task} (hm : task ∈ p.tasks) :
    task ∈ p'.tasks := by
  rcases hv.tasks with same | ⟨_, same⟩
  · exact same ▸ hm
  · exact same ▸ List.mem_append_left _ hm

section

variable (hs₀ : s₀.Closed)
include hs₀

theorem Working.visit {n : Nat} {rest : List (Int × String)}
    (hw : Working G s₀ t n (spread :: rest) p) (hv : Visit G t p spread p') :
    Working G s₀ t n rest p' := by
  have ha := hv.advances hw.held
  obtain ⟨hne, hrest⟩ := List.pairwise_cons.mp hw.distinct
  have hissued := ha.documents.issued_le
  have hold : ∀ task ∈ p.tasks, Due s₀ p'.store task ∧ (n : Int) < task.document :=
    fun task hm => ⟨(hw.tasks task hm).1.advances ha, (hw.tasks task hm).2⟩
  obtain ⟨hx, _⟩ := hw.spreads spread List.mem_cons_self
  refine ⟨hv.held hs₀ hw.held, hw.due.advances ha, fun e he => ?_, hrest,
    ⟨hw.least.1, Nat.le_trans hw.least.2 hissued⟩, ?_, ?_⟩
  · obtain ⟨he', q, hq, hplaced⟩ := hw.spreads e (List.mem_cons_of_mem _ he)
    exact ⟨hv.isSpread he' fun h => hne e he h.symm, q, hv.placements hq, hplaced⟩
  all_goals rcases hv.tasks with same | ⟨task, same⟩
  · exact same ▸ hold
  · obtain ⟨_, _, _, _, _, _, _, makes⟩ := hv.makes hs₀ hw.held hw.due.scope hx same
    intro task' hm
    rw [same] at hm
    rcases List.mem_append.mp hm with hm | hm
    · exact hold task' hm
    · obtain rfl := List.mem_singleton.mp hm
      have := p.store.documents.issued_lt_nextId
      have := hw.least.2
      refine ⟨makes.due, ?_⟩
      rw [makes.document]
      omega
  · exact same ▸ hw.separate
  · -- The number of the new document is greater than all numbers before.
    obtain ⟨_, _, _, _, _, _, _, makes⟩ := hv.makes hs₀ hw.held hw.due.scope hx same
    rw [same, List.map_append, List.nodup_append]
    refine ⟨hw.separate, by simp, fun a ha b hb => ?_⟩
    obtain ⟨task', hm, rfl⟩ := List.mem_map.mp ha
    have hle := le_issued_of_contains (hw.tasks task' hm).1.here
    have hb : b = task.document := by simpa using hb
    have := p.store.documents.issued_lt_nextId
    rw [hb, makes.document]
    omega

theorem Working.visits {n : Nat} (l : List (Int × String)) {r : List (Int × String)}
    {p : Progress} (hw : Working G s₀ t n (l ++ r) p) :
    ∃ p', visitSpreads t l p = (p', none) ∧ Visits G t l p p' ∧ Working G s₀ t n r p' := by
  induction l generalizing p with
  | nil => exact ⟨p, rfl, .nil p, hw⟩
  | cons spread l ih =>
    obtain ⟨p₁, hvisit, hv⟩ := visitSpread_ok hw.held hw.due.scope spread
    obtain ⟨p', hvisits, hvs, hw'⟩ := ih (hw.visit hs₀ hv)
    refine ⟨p', ?_, .cons hv hvs, hw'⟩
    simp only [visitSpreads, hvisit, hvisits]

theorem Visits.advances {n : Nat} {l : List (Int × String)} (hvs : Visits G t l p p')
    (hw : Working G s₀ t n l p) : Advances p.store p'.store := by
  induction hvs with
  | nil => exact .refl _
  | cons first _ ih => exact (first.advances hw.held).trans (ih (hw.visit hs₀ first))

end

/-- What every visit keeps, depending on the spreads still to be visited, holds in the end. -/
theorem Visits.induction {P : List (Int × String) → Progress → Prop} {n : Nat}
    {l : List (Int × String)} (hvs : Visits G t l p p') (hs₀ : s₀.Closed)
    (hw : Working G s₀ t n l p) (hP : P l p)
    (step : ∀ spread rest p p', Working G s₀ t n (spread :: rest) p → Visit G t p spread p' →
      P (spread :: rest) p → P rest p') : P [] p' := by
  induction hvs with
  | nil => exact hP
  | cons first _ ih => exact ih (hw.visit hs₀ first) (step _ _ _ _ hw first hP)

theorem Visits.length {l : List (Int × String)} (hvs : Visits G t l p p') :
    p'.clones.length + p.tasks.length = p.clones.length + p'.tasks.length := by
  induction hvs with
  | nil => rfl
  | cons first _ ih =>
    have := first.length
    omega

/-! ## Performing a task -/

theorem mem_spreads {d : Int} {e : Int × String} : e ∈ spreads s d ↔
    IsSpread s e ∧ ∃ q ∈ s.placements.rows, q.document = d ∧ q.child = e.1 := by
  obtain ⟨id, name⟩ := e
  simp only [spreads, List.mem_map, List.mem_filter, mem_selectionsIn, decide_eq_true_eq,
    Prod.exists, Prod.mk.injEq, IsSpread]
  constructor
  · rintro ⟨_, row, ⟨⟨hrow, hq⟩, hk⟩, rfl, rfl⟩
    exact ⟨⟨row, hrow, hk, rfl⟩, hq⟩
  · rintro ⟨⟨row, hrow, hk, rfl⟩, hq⟩
    exact ⟨id, row, ⟨⟨hrow, hq⟩, hk⟩, rfl, rfl⟩

theorem spreads_pairwise (s : Store) (d : Int) : (spreads s d).Pairwise fun a b => a.1 ≠ b.1 := by
  refine List.pairwise_map.mpr (((s.selections.ordered.filter _).filter _).imp ?_)
  exact fun hlt => Int.ne_of_lt hlt

/-- The work on one task. -/
structure Performed (G : Int → Prop) (s₀ : Store) (t : Task) (s : Store) (clones : List String)
    (null? : Option Int) (u : Store) (p : Progress) : Prop where
  substituted : Inlining.substituted s t = .ok u
  opened : Substituted G s t.document (s.meaning t.scope) u
  start : Working G s₀ t u.documents.issued (spreads u t.document) ⟨u, clones, null?, []⟩
  visited : visitSpreads t (spreads u t.document) ⟨u, clones, null?, []⟩ = (p, none)
  visits : Visits G t (spreads u t.document) ⟨u, clones, null?, []⟩ p
  finish : Working G s₀ t u.documents.issued [] p

theorem perform_ok (hs₀ : s₀.Closed) (hG : ∀ d : Int, (s₀.documents.issued : Int) < d → ¬ G d)
    (h : Held G s₀ clones null? s) (ht : Due s₀ s t) :
    ∃ u p, perform s clones null? t = (p, none) ∧ Performed G s₀ t s clones null? u p := by
  have opened : ∃ u, Inlining.substituted s t = .ok u ∧
      Substituted G s t.document (s.meaning t.scope) u := by
    cases hscope : t.scope with
    | nil => exact ⟨s, by rw [substituted, hscope]; rfl, h.sound.substituted_nil _⟩
    | cons e rest =>
      have hne : t.scope ≠ [] := by simp [hscope]
      obtain ⟨u, hu, hsub⟩ := h.sound.substitute (hG _ (ht.clone hne))
        fun name v hv => ⟨(ht.scope.rooted name v hv).1.1, (ht.scope.rooted name v hv).1.not_inside⟩
      refine ⟨u, ?_, hscope ▸ hsub⟩
      rw [substituted, if_neg (by simp [hscope])]
      exact hu
  obtain ⟨u, hu, hsub⟩ := opened
  have ha := hsub.advances h.sound
  have held := h.substituted hsub
  have start : Working G s₀ t u.documents.issued (spreads u t.document) ⟨u, clones, null?, []⟩ :=
    ⟨held, ht.advances ha, fun e he => mem_spreads.mp he, spreads_pairwise u t.document,
      ⟨held.advances.documents.issued_le, Nat.le_refl _⟩, by simp, by simp⟩
  obtain ⟨p, hvisits, hvs, finish⟩ :=
    Working.visits hs₀ (spreads u t.document) (by rw [List.append_nil]; exact start)
  refine ⟨u, p, ?_, hu, hsub, start, hvisits, hvs, finish⟩
  obtain ⟨row, hrow⟩ := contains_iff.mp ht.here
  simp only [perform, hrow, hu, hvisits]
  rfl

/-! ## Steps -/

/-- A state of a run that began with `s₀`. -/
structure Running (G : Int → Prop) (s₀ : Store) (w : Inlining) : Prop where
  held : Held G s₀ w.clones w.null? w.store
  roots : ∀ t ∈ w.roots, Due s₀ w.store t ∧ t.document ≤ s₀.documents.issued
  followUps : ∀ t ∈ w.followUps, Due s₀ w.store t ∧ (s₀.documents.issued : Int) < t.document
  separate : (w.followUps.map (·.document)).Nodup
  fine : w.diagnostics = []

/-- What a step does: it takes a task and performs it. -/
structure Stepped (G : Int → Prop) (s₀ : Store) (w : Inlining) (t : Task) (w₁ : Inlining)
    (u : Store) (p : Progress) : Prop where
  next : w.next? = some (t, w₁)
  due : Due s₀ w.store t
  performed : Performed G s₀ t w.store w.clones w.null? u p
  outcome : perform w.store w.clones w.null? t = (p, none)
  step : w.step = { w₁ with
    store := p.store, clones := p.clones, null? := p.null?, made := w.made + p.tasks.length
    followUps := w₁.followUps ++ p.tasks }

/-- The next task is a clone or, if there is none left, a root. -/
theorem next?_cases {w w₁ : Inlining} (h : w.next? = some (t, w₁)) :
    (∃ rest, w.followUps = t :: rest ∧ w₁ = { w with followUps := rest }) ∨
      w.followUps = [] ∧ ∃ rest, w.roots = t :: rest ∧ w₁ = { w with roots := rest } := by
  revert h
  fun_cases next? w with
  | case1 t' rest hf =>
    rintro ⟨⟩
    exact .inl ⟨rest, hf, rfl⟩
  | case2 t' rest hr hf =>
    rintro ⟨⟩
    exact .inr ⟨hf, rest, hr, rfl⟩
  | case3 => exact fun h => nomatch h

/-- The task that is taken was waiting, and all others still are. -/
theorem waiting_iff_of_next? {w w₁ : Inlining} (h : w.next? = some (t, w₁)) {t' : Task} :
    (t' ∈ w.followUps ∨ t' ∈ w.roots) ↔ t' = t ∨ t' ∈ w₁.followUps ∨ t' ∈ w₁.roots := by
  rcases next?_cases h with ⟨rest, hf, rfl⟩ | ⟨hf, rest, hr, rfl⟩
  · rw [hf, List.mem_cons, or_assoc]
  · rw [hr, List.mem_cons, or_left_comm]

theorem next?_eq_none_iff {w : Inlining} : w.next? = none ↔ w.isDone := by
  rw [isDone, Bool.and_eq_true, List.isEmpty_iff, List.isEmpty_iff]
  fun_cases next? w with
  | case1 t' rest hf => simp [hf]
  | case2 t' rest hr hf => simp [hr]
  | case3 hf hr => simp [hf, hr]

theorem step_of_isDone {w : Inlining} (h : w.isDone) : w.step = w := by
  rw [step, next?_eq_none_iff.mpr h]

theorem run_of_isDone {w : Inlining} (h : w.isDone) (n : Nat) : w.run n = w := by
  cases n with
  | zero => rfl
  | succ n => rw [run, if_pos h]

theorem run_succ (n : Nat) (w : Inlining) : w.run (n + 1) = (w.run n).step := by
  induction n generalizing w with
  | zero =>
    rw [run, run, run]
    split
    · next h => exact (step_of_isDone h).symm
    · rfl
  | succ n ih =>
    rw [run]
    split
    · next h => rw [run_of_isDone h, step_of_isDone h]
    · next h => rw [ih w.step, run, if_neg h]

theorem run_add (m n : Nat) (w : Inlining) : w.run (m + n) = (w.run m).run n := by
  induction n with
  | zero => rfl
  | succ n ih => rw [← Nat.add_assoc, run_succ, run_succ, ih]

/-- A run has one end. -/
theorem run_eq_of_isDone {w : Inlining} {m n : Nat} (hm : (w.run m).isDone)
    (hn : (w.run n).isDone) : w.run m = w.run n := by
  rw [← run_of_isDone hm n, ← run_add, Nat.add_comm, run_add, run_of_isDone hn]

theorem settle_ok (w : Inlining) (t : Task) {p : Progress} (h : p.store.Closed) :
    w.settle t (p, none) = { w with
      store := p.store, clones := p.clones, null? := p.null?, made := w.made + p.tasks.length
      followUps := w.followUps ++ p.tasks } := by
  have hclosed := (closed_iff _).mpr h
  have hcommit : w.store.commit (.ok (p.store, ())) = (p.store, .ok ()) :=
    if_pos hclosed
  unfold settle
  dsimp only
  rw [hcommit]

section

variable (hs₀ : s₀.Closed) (hG : ∀ d : Int, (s₀.documents.issued : Int) < d → ¬ G d)
include hs₀ hG

theorem Running.stepped {w w₁ : Inlining} (h : Running G s₀ w) (hnext : w.next? = some (t, w₁)) :
    ∃ u p, Stepped G s₀ w t w₁ u p := by
  have hw₁ : w₁.store = w.store ∧ w₁.clones = w.clones ∧ w₁.null? = w.null? ∧ w₁.made = w.made ∧
      Due s₀ w.store t := by
    rcases next?_cases hnext with ⟨rest, hf, rfl⟩ | ⟨_, rest, hr, rfl⟩
    · exact ⟨rfl, rfl, rfl, rfl, (h.followUps t (by simp [hf])).1⟩
    · exact ⟨rfl, rfl, rfl, rfl, (h.roots t (by simp [hr])).1⟩
  obtain ⟨hstore, hclones, hnull, hmade, due⟩ := hw₁
  obtain ⟨u, p, hperform, performed⟩ := perform_ok hs₀ hG h.held due
  refine ⟨u, p, hnext, due, performed, hperform, ?_⟩
  rw [Inlining.step, hnext]
  simp only
  rw [hstore, hclones, hnull, hperform, settle_ok w₁ t performed.finish.held.sound.closed, hmade]

omit hG in
theorem Stepped.running {w w₁ : Inlining} {u : Store} {p : Progress} (h : Running G s₀ w)
    (hst : Stepped G s₀ w t w₁ u p) : Running G s₀ w.step := by
  obtain ⟨hnext, due, performed, -, hstep⟩ := hst
  have ha : Advances w.store p.store :=
    (performed.opened.advances h.held.sound).trans (performed.visits.advances hs₀ performed.start)
  have hdue : ∀ {n : Int → Prop} {t' : Task}, Due s₀ w.store t' ∧ n t'.document →
      Due s₀ p.store t' ∧ n t'.document := fun ht => ⟨ht.1.advances ha, ht.2⟩
  have hleast := performed.finish.least
  have hu : u.documents.issued = w.store.documents.issued := by
    rw [performed.opened.rest]
  -- What remains of the work that was there before.
  have hw₁ : (∀ t' ∈ w₁.roots, t' ∈ w.roots) ∧ (∀ t' ∈ w₁.followUps, t' ∈ w.followUps) ∧
      (w₁.followUps.map (·.document)).Nodup ∧ w₁.diagnostics = [] := by
    rcases next?_cases hnext with ⟨rest, hf, rfl⟩ | ⟨hf, rest, hr, rfl⟩
    · have := h.separate
      rw [hf, List.map_cons, List.nodup_cons] at this
      exact ⟨fun _ hm => hm, fun _ hm => by simp [hf, hm], this.2, h.fine⟩
    · exact ⟨fun _ hm => by simp [hr, hm], fun _ hm => hm, h.separate, h.fine⟩
  rw [hstep]
  refine ⟨performed.finish.held, fun t' hm => ?_, fun t' hm => ?_, ?_, hw₁.2.2.2⟩
  · exact ⟨(h.roots t' (hw₁.1 t' hm)).1.advances ha, (h.roots t' (hw₁.1 t' hm)).2⟩
  · rcases List.mem_append.mp hm with hm | hm
    · have ht := h.followUps t' (hw₁.2.1 t' hm)
      exact ⟨ht.1.advances ha, ht.2⟩
    · obtain ⟨hd, hlt⟩ := performed.finish.tasks t' hm
      exact ⟨hd, by omega⟩
  · rw [List.map_append, List.nodup_append]
    refine ⟨hw₁.2.2.1, performed.finish.separate, fun a hma b hmb => ?_⟩
    obtain ⟨t₁, hm₁, rfl⟩ := List.mem_map.mp hma
    obtain ⟨t₂, hm₂, rfl⟩ := List.mem_map.mp hmb
    have hle := le_issued_of_contains (h.followUps t₁ (hw₁.2.1 t₁ hm₁)).1.here
    have := (performed.finish.tasks t₂ hm₂).2
    omega

theorem Running.step {w : Inlining} (h : Running G s₀ w) : Running G s₀ w.step := by
  cases hnext : w.next? with
  | none =>
    rw [Inlining.step, hnext]
    exact h
  | some e =>
    obtain ⟨t, w₁⟩ := e
    obtain ⟨u, p, hst⟩ := h.stepped hs₀ hG hnext
    exact hst.running hs₀ h

/-- What every step keeps holds all along a run. -/
theorem Running.run_induction {P : Inlining → Prop} {w : Inlining} (h : Running G s₀ w) (hP : P w)
    (step : ∀ w, Running G s₀ w → P w → P w.step) (n : Nat) :
    Running G s₀ (w.run n) ∧ P (w.run n) := by
  induction n with
  | zero => exact ⟨h, hP⟩
  | succ n ih =>
    rw [run_succ]
    exact ⟨ih.1.step hs₀ hG, step _ ih.1 ih.2⟩

theorem Running.run {w : Inlining} (h : Running G s₀ w) (n : Nat) : Running G s₀ (w.run n) :=
  (h.run_induction hs₀ hG (P := fun _ => True) trivial (fun _ _ _ => trivial) n).1

end

/-! ## The end of a run -/

/-- All names that clones can have. -/
def cloneNames (s : Store) : List String :=
  s.documents.rows.flatMap fun d => (List.range 4294967296).map fun n =>
    d.name ++ "_" ++ CloneName.base62 (UInt32.ofNat n)

theorem length_cloneNames (s : Store) : (cloneNames s).length = s.documents.size * 4294967296 := by
  rw [cloneNames, List.length_flatMap]
  simp only [List.length_map, List.length_range, List.map_const', List.sum_replicate_nat, rows,
    size]

theorem Held.length_clones (h : Held G s₀ clones null? s) :
    clones.length ≤ s₀.documents.size * 4294967296 := by
  rw [← length_cloneNames]
  refine (List.subperm_of_subset h.distinct fun name hn => ?_).length_le
  obtain ⟨d, hd, arguments, rfl⟩ := h.derived name hn
  refine List.mem_flatMap.mpr ⟨d, hd, List.mem_map.mpr
    ⟨(CloneName.hash (CloneName.identity arguments) 0).toNat, ?_, ?_⟩⟩
  · exact List.mem_range.mpr (UInt32.toNat_lt _)
  · rw [UInt32.ofNat_toNat]
    rfl

/-- The work that is left, if `bound` clones can be made in all. -/
def remaining (bound : Nat) (w : Inlining) : Nat :=
  w.followUps.length + w.roots.length + (bound - w.clones.length)

theorem Stepped.remaining {w w₁ : Inlining} {u : Store} {p : Progress}
    (hst : Stepped G s₀ w t w₁ u p) {bound : Nat} (hle : w.step.clones.length ≤ bound) :
    remaining bound w.step < remaining bound w := by
  have hlength := hst.performed.visits.length
  have hw₁ : w₁.followUps.length + w₁.roots.length + 1 = w.followUps.length + w.roots.length := by
    rcases next?_cases hst.next with ⟨rest, hf, rfl⟩ | ⟨hf, rest, hr, rfl⟩
    · simp only [hf, List.length_cons]
      omega
    · simp only [hr, List.length_cons]
      omega
  rw [hst.step] at hle ⊢
  simp only [Inlining.remaining, List.length_append, List.length_nil] at hlength hle ⊢
  omega

/-- A run ends if there is a bound on the clones that it makes. -/
theorem Running.isDone (hs₀ : s₀.Closed)
    (hG : ∀ d : Int, (s₀.documents.issued : Int) < d → ¬ G d) {w : Inlining}
    (h : Running G s₀ w) {bound n : Nat} (bounded : ∀ m, (w.run m).clones.length ≤ bound)
    (hn : remaining bound w ≤ n) : (w.run n).isDone := by
  induction n generalizing w with
  | zero =>
    rw [Inlining.run, Inlining.isDone, Bool.and_eq_true, List.isEmpty_iff, List.isEmpty_iff]
    rw [remaining] at hn
    exact ⟨List.length_eq_zero_iff.mp (by omega), List.length_eq_zero_iff.mp (by omega)⟩
  | succ n ih =>
    rw [Inlining.run]
    split
    · next hdone => exact hdone
    · next hmore =>
      cases hnext : w.next? with
      | none => exact absurd (next?_eq_none_iff.mp hnext) hmore
      | some e =>
        obtain ⟨u, p, hst⟩ := h.stepped hs₀ hG hnext
        have bounded' : ∀ m, (w.step.run m).clones.length ≤ bound := fun m => by
          have := bounded (m + 1)
          rwa [Inlining.run, if_neg hmore] at this
        have := hst.remaining (bounded' 0)
        exact ih (hst.running hs₀ h) bounded' (by omega)

/-! ## The start of a run -/

/-- What a store needs for a run to go well. -/
structure Handed (G : Int → Prop) (s : Store) : Prop where
  sound : s.Sound G
  written : ∀ o v, s.owns o = some v → o.IsRoot → (s.read v).Written
  lasting : ∀ d : Int, (s.documents.issued : Int) < d → ¬ G d

theorem mem_rootDocuments {d : Int} : d ∈ rootDocuments s ↔ ∃ row,
    s.documents.get? d = some row ∧ (row.kind ≠ .fragment ∨ s.variablesOf d = []) := by
  simp only [rootDocuments, List.mem_map, List.mem_filter, Prod.exists, Bool.or_eq_true,
    decide_eq_true_eq, List.isEmpty_iff, get?_eq_some_iff]
  constructor
  · rintro ⟨_, row, ⟨hrow, h⟩, rfl⟩
    exact ⟨row, hrow, h⟩
  · rintro ⟨row, hrow, h⟩
    exact ⟨d, row, ⟨hrow, h⟩, rfl⟩

theorem Handed.running (h : Handed G s) : Running G s (start s) where
  held :=
    { sound := h.sound, advances := .refl s, named := fun _ hd => .inl hd
      exclusive := fun p hp hd => by
        have := le_issued_of_contains (h.sound.closed.placements p hp).2.2
        omega
      null := nofun, written := h.written, distinct := .nil, derived := nofun }
  roots := by
    intro t ht
    obtain ⟨d, hd, rfl⟩ := List.mem_map.mp ht
    obtain ⟨row, hrow, hroot⟩ := mem_rootDocuments.mp hd
    refine ⟨⟨⟨?_, nofun⟩, contains_of_get? hrow, fun hne => absurd rfl hne⟩,
      le_issued hrow⟩
    rcases hroot with hk | hv
    · simp only [ownDefaults, start, hrow]
      split
      · next he =>
        cases he
        exact absurd rfl hk
      · rfl
    · exact ownDefaults_eq_nil hv
  followUps := nofun
  separate := .nil
  fine := rfl

/-- The end of a run. -/
def finished (s : Store) : Inlining := (start s).run (fuelFor s)

theorem Handed.ran (h : Handed G s) : Running G s (finished s) :=
  h.running.run h.sound.closed h.lasting (fuelFor s)

theorem Handed.isDone (h : Handed G s) : (finished s).isDone := by
  refine h.running.isDone h.sound.closed h.lasting
    (fun m => (h.running.run h.sound.closed h.lasting m).held.length_clones) ?_
  have hle : (rootDocuments s).length ≤ s.documents.size := by
    rw [rootDocuments, List.length_map]
    exact List.length_filter_le ..
  simp only [remaining, start, fuelFor, List.length_nil, List.length_map]
  omega

theorem Handed.finished_eq (h : Handed G s) {n : Nat} (done : ((start s).run n).isDone) :
    finished s = (start s).run n := run_eq_of_isDone h.isDone done

end Inlining

end GraphDoc
