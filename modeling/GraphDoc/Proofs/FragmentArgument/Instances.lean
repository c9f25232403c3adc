import GraphDoc.Proofs.Spelling

/-!
# Clones are instances of their templates

A clone waits on the work list until its own task is taken. Up to then it is the template's tree
with nothing substituted; from then on every variable that the template declares is replaced by its
bound value. Everything else that happens to it is that spreads of templates get the names of
clones.
-/

set_option autoImplicit false

namespace GraphDoc.Inlining

open Store

variable {s s₀ u : Store} {G : Int → Prop} {t task : Task} {p p' : Progress} {w w₁ : Inlining}
  {row : DocumentRow} {tree : List SelectionNode} {nodes : List DirectiveNode}
  {values values' : Value → Value}

/-- Document `d` has the row, the directives and, but for the numbers of selections and the names of
spreads, the tree with `values` applied to its arguments. -/
structure Looks (s₀ : Store) (row : DocumentRow) (tree : List SelectionNode)
    (nodes : List DirectiveNode) (values : Value → Value) (s : Store) (d : Int) : Prop where
  row : s.documents.get? d = some row
  tree : ∃ ids rows, Renaming s₀ rows ∧
    s.selectionTree d = .ok (SelectionNode.rewriteAll ids rows values tree)
  nodes : s.nodes .document d = nodes

theorem Looks.rewrite {s' : Store} {d : Int} (h : Looks s₀ row tree nodes values s d)
    (ha : Advances s s') {rows : Int → SelectionRow → SelectionRow} (hrows : Renaming s₀ rows)
    (hs' : s'.selectionTree d = (s.selectionTree d).map
      (SelectionNode.rewriteAll (fun x => x) rows values')) :
    Looks s₀ row tree nodes (fun v => values' (values v)) s' d := by
  obtain ⟨ids, rows₀, hrows₀, htree⟩ := h.tree
  refine ⟨ha.documents.get?_of_get? h.row, ⟨ids, _, hrows₀.comp hrows ids, ?_⟩,
    (ha.nodes d (Table.contains_of_get? h.row)).trans h.nodes⟩
  rw [hs', htree]
  exact congrArg Except.ok (SelectionNode.rewriteAll_rewriteAll tree)

section

variable (hs₀ : s₀.Closed)
include hs₀

theorem Looks.visits {d : Int} {n : Nat} {l : List (Int × String)} (hvs : Visits G t l p p')
    (hw : Working G s₀ t n l p) (h : Looks s₀ row tree nodes values p.store d) :
    Looks s₀ row tree nodes values p'.store d := by
  refine hvs.induction (P := fun _ q => Looks s₀ row tree nodes values q.store d) hs₀ hw h ?_
  intro spread rest q q' hw hv hq
  obtain ⟨rows, hrows, hsame⟩ := hv.renames hs₀ hw.held
    (hw.spreads spread List.mem_cons_self).1 (Table.contains_of_get? hq.row)
  exact hq.rewrite (hv.advances hw.held) hrows hsame

theorem Performed.looks_other {clones : List String} {null? : Option Int}
    (hp : Performed G s₀ t s clones null? u p) (h : Held G s₀ clones null? s) {d : Int}
    (hd : (s₀.documents.issued : Int) < d) (hne : d ≠ t.document)
    (hl : Looks s₀ row tree nodes values s d) : Looks s₀ row tree nodes values p.store d := by
  have same : u.selectionTree d = (s.selectionTree d).map
      (SelectionNode.rewriteAll (fun x => x) (fun _ row => row) fun v => v) := by
    refine (hp.opened.unmoved h.sound h.exclusive (.inl hd) hne).trans ?_
    obtain ⟨ids, rows, _, htree⟩ := hl.tree
    rw [htree]
    exact congrArg Except.ok (SelectionNode.rewriteAll_id _).symm
  exact Looks.visits hs₀ hp.visits hp.start (hl.rewrite (hp.opened.advances h.sound) (.refl s₀) same)

theorem Performed.looks_own {clones : List String} {null? : Option Int}
    (hp : Performed G s₀ t s clones null? u p) (h : Held G s₀ clones null? s)
    (hl : Looks s₀ row tree nodes values s t.document) :
    Looks s₀ row tree nodes (fun v => (values v).substitute (s.meaning t.scope)) p.store
      t.document :=
  Looks.visits hs₀ hp.visits hp.start
    (hl.rewrite (hp.opened.advances h.sound) (.refl s₀) (hp.opened.tree h.sound))

end

/-! ## The two phases of a clone -/

/-- The clone is on the work list and has nothing substituted. -/
structure Waiting (s₀ : Store) (row : DocumentRow) (tree : List SelectionNode)
    (nodes : List DirectiveNode) (σ : String → Option Value) (task : Task) (w : Inlining) :
    Prop where
  queued : task ∈ w.followUps
  looks : Looks s₀ row tree nodes (fun v => v) w.store task.document
  meaning : w.store.meaning task.scope = σ

/-- The clone is off the work list for good and has its variables substituted. -/
structure Instantiated (s₀ : Store) (row : DocumentRow) (tree : List SelectionNode)
    (nodes : List DirectiveNode) (σ : String → Option Value) (d : Int) (w : Inlining) : Prop where
  new : (s₀.documents.issued : Int) < d
  absent : ∀ t ∈ w.followUps, t.document ≠ d
  looks : Looks s₀ row tree nodes (Value.substitute σ) w.store d

variable {σ : String → Option Value}

theorem Stepped.mem_followUps (hst : Stepped G s₀ w t w₁ u p) {t' : Task} :
    t' ∈ w.step.followUps ↔ t' ∈ w₁.followUps ∨ t' ∈ p.tasks := by
  rw [hst.step]
  exact List.mem_append

theorem Stepped.advances (hst : Stepped G s₀ w t w₁ u p) (hs₀ : s₀.Closed)
    (h : w.store.Sound G) : Advances w.store w.step.store := by
  rw [hst.step]
  exact (hst.performed.opened.advances h).trans
    (hst.performed.visits.advances hs₀ hst.performed.start)

theorem Stepped.ne_of_mem_tasks (hst : Stepped G s₀ w t w₁ u p) {t' : Task} (ht' : t' ∈ p.tasks)
    {d : Int} (hd : w.store.documents.contains d = true) : t'.document ≠ d := by
  have hlt := (hst.performed.finish.tasks t' ht').2
  rw [hst.performed.opened.rest] at hlt
  have hle := Table.le_issued_of_contains hd
  have hlt : (w.store.documents.issued : Int) < t'.document := hlt
  omega

theorem Instantiated.step (hi : Instantiated s₀ row tree nodes σ task.document w)
    (hst : Stepped G s₀ w t w₁ u p) (hs₀ : s₀.Closed) (h : Running G s₀ w) :
    Instantiated s₀ row tree nodes σ task.document w.step := by
  have hhere := Table.contains_of_get? hi.looks.row
  have hne : task.document ≠ t.document := by
    rcases next?_cases hst.next with ⟨rest, hf, _⟩ | ⟨_, rest, hr, _⟩
    · exact (hi.absent t (hf ▸ List.mem_cons_self)).symm
    · have := (h.roots t (hr ▸ List.mem_cons_self)).2
      have := hi.new
      omega
  refine ⟨hi.new, fun t' ht' => ?_, ?_⟩
  · rcases hst.mem_followUps.mp ht' with hm | hm
    · refine hi.absent t' ?_
      rcases next?_cases hst.next with ⟨rest, hf, rfl⟩ | ⟨_, rest, _, rfl⟩
      · exact hf ▸ List.mem_cons_of_mem _ hm
      · exact hm
    · exact hst.ne_of_mem_tasks hm hhere
  · rw [hst.step]
    exact hst.performed.looks_other hs₀ h.held hi.new hne hi.looks

theorem Waiting.step (hwait : Waiting s₀ row tree nodes σ task w)
    (hst : Stepped G s₀ w t w₁ u p) (hs₀ : s₀.Closed) (h : Running G s₀ w) :
    Waiting s₀ row tree nodes σ task w.step ∨
      t = task ∧ Instantiated s₀ row tree nodes σ task.document w.step := by
  obtain ⟨hqueued, hlooks, hmeaning⟩ := hwait
  have hhere := Table.contains_of_get? hlooks.row
  obtain ⟨hdue, hnew⟩ := h.followUps task hqueued
  rcases next?_cases hst.next with ⟨rest, hf, hw₁⟩ | ⟨hf, _⟩
  · have hseparate := h.separate
    rw [hf, List.map_cons, List.nodup_cons] at hseparate
    rw [hf] at hqueued
    rcases List.mem_cons.mp hqueued with rfl | hrest
    · -- The clone is worked on.
      refine .inr ⟨rfl, hnew, fun t' ht' => ?_, ?_⟩
      · rcases hst.mem_followUps.mp ht' with hm | hm
        · rw [hw₁] at hm
          intro he
          exact hseparate.1 (he ▸ List.mem_map_of_mem hm)
        · exact hst.ne_of_mem_tasks hm hhere
      · rw [hst.step, ← hmeaning]
        exact hst.performed.looks_own hs₀ h.held hlooks
    · -- Another clone comes first.
      have hne : task.document ≠ t.document := fun he =>
        hseparate.1 (he ▸ List.mem_map_of_mem hrest)
      refine .inl ⟨hst.mem_followUps.mpr (.inl (hw₁ ▸ hrest)), ?_, ?_⟩
      · rw [hst.step]
        exact hst.performed.looks_other hs₀ h.held hnew hne hlooks
      · rw [← hmeaning]
        exact (hst.advances hs₀ h.held.sound).meaning fun name v hv =>
          (hdue.scope.rooted name v hv).1
  · rw [hf] at hqueued
    cases hqueued

section

variable (hs₀ : s₀.Closed) (hG : ∀ d : Int, (s₀.documents.issued : Int) < d → ¬ G d)
include hs₀ hG

theorem Instantiated.run (hi : Instantiated s₀ row tree nodes σ task.document w)
    (h : Running G s₀ w) (n : Nat) :
    Instantiated s₀ row tree nodes σ task.document (w.run n) := by
  refine (h.run_induction hs₀ hG hi (fun w hw hi => ?_) n).2
  cases hnext : w.next? with
  | none => rwa [Inlining.step, hnext]
  | some e =>
    obtain ⟨u, p, hst⟩ := hw.stepped hs₀ hG hnext
    exact hi.step hst hs₀ hw

/-- A clone waits until its task is taken. -/
theorem Waiting.run (hwait : Waiting s₀ row tree nodes σ task w) (h : Running G s₀ w) (n : Nat) :
    Waiting s₀ row tree nodes σ task (w.run n) ∨ ∃ m < n,
      (∃ w₁, (w.run m).next? = some (task, w₁)) ∧
      Instantiated s₀ row tree nodes σ task.document (w.run (m + 1)) := by
  induction n with
  | zero => exact .inl hwait
  | succ n ih =>
    rcases ih with hwait | ⟨m, hm, hdone⟩
    · have hn := h.run hs₀ hG n
      cases hnext : (w.run n).next? with
      | none =>
        rw [run_succ, Inlining.step, hnext]
        exact .inl hwait
      | some e =>
        obtain ⟨u, p, hst⟩ := hn.stepped hs₀ hG hnext
        rw [run_succ]
        refine (hwait.step hst hs₀ hn).imp_right ?_
        rintro ⟨he, hi⟩
        exact ⟨n, Nat.lt_succ_self n, ⟨e.2, he ▸ hnext⟩, run_succ n w ▸ hi⟩
    · exact .inr ⟨m, Nat.lt_succ_of_lt hm, hdone⟩

end

theorem Stepped.waiting (hst : Stepped G s₀ w t w₁ u p) (hs₀ : s₀.Closed) {spread : Int × String}
    {post : List (Int × String)} {q q' : Progress}
    (hw : Working G s₀ t u.documents.issued (spread :: post) q) (hv : Visit G t q spread q')
    (hvs : Visits G t post q' p) (made : q'.tasks = q.tasks ++ [task]) :
    ∃ target row tree, q.store.findDocument spread.2 .fragment = some (target, row) ∧
      q.store.variablesOf target ≠ [] ∧ q.store.selectionTree target = .ok tree ∧
      Waiting s₀ { row with name := CloneName.cloneName row.name (appliedTexts q.store t spread.1) }
        tree ((q.store.nodes .document target).filter (·.name ≠ Framework.argumentsTag))
        (boundValue q.store t.scope target spread.1) task w.step := by
  obtain ⟨hx, _⟩ := hw.spreads spread List.mem_cons_self
  obtain ⟨target, row, ids, rows, found, declares, hrows, makes⟩ :=
    hv.makes hs₀ hw.held hw.due.scope hx made
  obtain ⟨tree, htree⟩ := hw.held.sound.selectionTree_ok target
  have hw' := hw.visit hs₀ hv
  have queued : task ∈ p.tasks := by
    refine hvs.induction (P := fun _ r => task ∈ r.tasks) hs₀ hw' (by simp [made]) ?_
    intro spread rest r r' _ hr hm
    rcases hr.tasks with same | ⟨_, same⟩
    · exact same ▸ hm
    · exact same ▸ List.mem_append_left _ hm
  refine ⟨target, row, tree, found, declares, htree, hst.mem_followUps.mpr (.inr queued), ?_, ?_⟩
  · rw [hst.step]
    refine Looks.visits hs₀ hvs hw' ⟨makes.row, ⟨ids.image, rows, hrows, ?_⟩, makes.nodes⟩
    rw [makes.tree, htree]
    rfl
  · rw [hst.step, ← makes.meaning]
    exact (hvs.advances hs₀ hw').meaning fun name v hv => (makes.due.scope.rooted name v hv).1

/-- When a step makes a clone, the clone's own task is taken later on. From then on the clone is the
template as it stood, with each variable that the template declares replaced by its bound value and
without the declaration; only spreads of templates may have other names. -/
theorem clone_is_instance {project : Project} {n : Nat} (h : project.handover? = some s)
    {e : Encounter} (he : e ∈ encounters ((start s).run n)) {after : Progress}
    (visited : visitSpread e.task e.before e.spread = .ok after)
    (made : after.tasks = e.before.tasks ++ [task]) :
    ∃ target row tree nodes, e.before.store.findDocument e.spread.2 .fragment = some (target, row) ∧
      e.before.store.variablesOf target ≠ [] ∧
      e.before.store.selectionTree target = .ok tree ∧
      e.before.store.directiveNodes .document target = .ok nodes ∧
      ∃ m, n < m ∧ (∃ w, ((start s).run m).next? = some (task, w)) ∧
        ∀ k, m < k →
          let later := ((start s).run k).store
          later.documents.get? task.document = some { row with
            name := CloneName.cloneName row.name (appliedTexts e.before.store e.task e.spread.1) } ∧
          (∃ ids rows, Renaming s rows ∧ later.selectionTree task.document =
            .ok (SelectionNode.rewriteAll ids rows
              (Value.substitute (boundValue e.before.store e.task.scope target e.spread.1)) tree)) ∧
          later.directiveNodes .document task.document =
            .ok (nodes.filter (·.name ≠ Framework.argumentsTag)) := by
  obtain ⟨G, hs⟩ := handed h
  have hs₀ := hs.sound.closed
  have running := hs.running.run hs₀ hs.lasting
  obtain ⟨w₁, u, p, post, hst, hw, hvisits⟩ := (running n).of_mem_encounters hs₀ hs.lasting he
  -- The visit, and those after it in the same task.
  obtain ⟨q, hvisit, hv⟩ := visitSpread_ok hw.held hw.due.scope e.spread
  obtain rfl : q = after := Except.ok.inj (hvisit.symm.trans visited)
  obtain ⟨p', hvisits', hvs, _⟩ := Working.visits hs₀ post (r := [])
    (by rw [List.append_nil]; exact hw.visit hs₀ hv)
  obtain rfl : p' = p := by
    simp only [visitSpreads, hvisit, hvisits'] at hvisits
    exact (Prod.mk.inj hvisits).1
  obtain ⟨target, row, tree, found, declares, htree, hwait⟩ := hst.waiting hs₀ hw hv hvs made
  refine ⟨target, row, tree, _, found, declares, htree,
    hw.held.sound.directiveNodes_eq .document target, ?_⟩
  rw [← run_succ] at hwait
  -- When the run is over the clone no longer waits.
  rcases hwait.run hs₀ hs.lasting (running (n + 1)) (fuelFor s) with hwait | ⟨m, _, hnext, hi⟩
  · have hend : ((start s).run (n + 1)).run (fuelFor s) = finished s := by
      rw [← run_add, Nat.add_comm, run_add]
      exact run_of_isDone hs.isDone _
    have hdone := hs.isDone
    rw [← hend, isDone, Bool.and_eq_true, List.isEmpty_iff] at hdone
    have hqueued := hwait.queued
    rw [hdone.1] at hqueued
    cases hqueued
  · rw [← run_add] at hnext hi
    refine ⟨n + 1 + m, by omega, hnext, fun k hk => ?_⟩
    obtain ⟨j, rfl⟩ := Nat.exists_eq_add_of_lt hk
    have hlooks := (hi.run hs₀ hs.lasting (running _) j).looks
    rw [← run_add, show n + 1 + (m + 1) + j = n + 1 + m + j + 1 by omega] at hlooks
    exact ⟨hlooks.row, hlooks.tree,
      ((running _).held.sound.directiveNodes_eq .document _).trans (congrArg Except.ok hlooks.nodes)⟩

/-- The first clone of the sample is an instance of its template once its task is taken. -/
theorem sample_clone_is_instance : ∃ s e after task, sample.handover? = some s ∧
    e ∈ encounters ((start s).run 0) ∧ visitSpread e.task e.before e.spread = .ok after ∧
    after.tasks = e.before.tasks ++ [task] ∧
    ∃ target row tree, e.before.store.findDocument e.spread.2 .fragment = some (target, row) ∧
      e.before.store.selectionTree target = .ok tree ∧
      ∃ m, ∀ k, m < k → ∃ ids rows, Renaming s rows ∧
        ((start s).run k).store.selectionTree task.document =
          .ok (SelectionNode.rewriteAll ids rows
            (Value.substitute (boundValue e.before.store e.task.scope target e.spread.1)) tree) := by
  obtain ⟨s, run⟩ := exists_sampleRun
  obtain ⟨e, he, after, task, visited, made⟩ := run.makes
  obtain ⟨target, row, tree, _, found, _, htree, _, m, _, _, later⟩ :=
    clone_is_instance (n := 0) run.handed he visited made
  exact ⟨s, e, after, task, run.handed, he, visited, made, target, row, tree, found, htree, m,
    fun k hk => (later k hk).2.1⟩

end GraphDoc.Inlining
