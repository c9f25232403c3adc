import GraphDoc.Proofs.FragmentArgument.Origins
import GraphDoc.Proofs.Spelling
import Mathlib.Data.String.Basic

/-!
# Termination of the inliner

Templates may spread themselves and each other and hand their arguments on in any way. The inliner
ends all the same: a clone is named after a template, the names of `@with` arguments and the texts
of values, and none of these are new. `Inlining.stock` lists the names that they can make, and every
clone takes a name from it that no other clone has.
-/

set_option autoImplicit false

namespace GraphDoc

open Table

namespace NameMap

variable {α β : Type}

theorem mem_names_ofPairs {pairs : List (String × α)} {e : String × α} (h : e ∈ pairs) :
    e.1 ∈ (ofPairs pairs).map (·.1) := by
  have hmem : e ∈ pairs.filter (·.1 = e.1) := List.mem_filter.mpr ⟨h, decide_eq_true rfl⟩
  have hlast := List.getLast?_eq_some_getLast (List.ne_nil_of_mem hmem)
  have hget := get?_ofPairs pairs e.1
  rw [hlast, Option.map_some] at hget
  exact List.mem_map.mpr ⟨_, mem_of_get? hget, rfl⟩

/-- All maps from some of the names to some of the texts. -/
def assignments (texts : List String) : List String → List (NameMap String)
  | [] => [[]]
  | name :: names =>
    let rest := assignments texts names
    rest ++ texts.flatMap fun text => rest.map ((name, text) :: ·)

theorem mem_assignments {texts names : List String} (hnames : names.Pairwise (· < ·))
    {m : NameMap String} (hm : Ascending m) (h : ∀ e ∈ m, e.1 ∈ names ∧ e.2 ∈ texts) :
    m ∈ assignments texts names := by
  induction names generalizing m with
  | nil =>
    cases m with
    | nil => exact List.mem_singleton.mpr rfl
    | cons e m => exact absurd (h e List.mem_cons_self).1 List.not_mem_nil
  | cons name names ih =>
    obtain ⟨hlt, hnames⟩ := List.pairwise_cons.mp hnames
    -- Either the map starts with the least name or it does not have it.
    by_cases hfirst : ∃ text rest, m = (name, text) :: rest
    · obtain ⟨text, rest, rfl⟩ := hfirst
      obtain ⟨hrest, hm⟩ := List.pairwise_cons.mp hm
      refine List.mem_append_right _ (List.mem_flatMap.mpr ⟨text, (h _ List.mem_cons_self).2, ?_⟩)
      refine List.mem_map_of_mem (ih hnames hm fun e he => ?_)
      obtain ⟨hn, ht⟩ := h e (List.mem_cons_of_mem _ he)
      exact ⟨(List.mem_cons.mp hn).resolve_left (ne_of_gt (hrest e he)), ht⟩
    · refine List.mem_append_left _ (ih hnames hm fun e he => ?_)
      obtain ⟨hn, ht⟩ := h e he
      refine ⟨(List.mem_cons.mp hn).resolve_left fun hname => hfirst ?_, ht⟩
      cases m with
      | nil => exact absurd he List.not_mem_nil
      | cons first rest =>
        obtain ⟨hrest, _⟩ := List.pairwise_cons.mp hm
        rcases List.mem_cons.mp he with rfl | he
        · exact ⟨e.2, rest, by rw [← hname]⟩
        · -- A name before the least one is none of the names.
          have hbefore : first.1 < name := hname ▸ hrest e he
          rcases List.mem_cons.mp (h first List.mem_cons_self).1 with hf | hf
          · exact absurd (hf ▸ hbefore) (lt_irrefl _)
          · exact absurd (lt_trans hbefore (hlt _ hf)) (lt_irrefl _)

end NameMap

namespace Inlining

open Store

/-! ## The names that are in stock -/

/-- The names of the fragments that declare arguments. -/
def templateNames (s : Store) : List String :=
  (s.documents.entries.filter fun e =>
    e.2.kind = .fragment && !(s.variablesOf e.1).isEmpty).map (·.2.name)

/-- The names of all arguments that are applied to spreads. -/
def withNames (s : Store) : List String :=
  ((s.directives .selection).arguments.rows.filter fun a =>
    ((s.directives .selection).uses.get? a.owner).any (·.name = Framework.withTag)).map (·.name)

/-- The texts of all values, and that of null. -/
def rawTexts (s : Store) : List String := "null" :: s.values.rows.map (·.raw)

/-- All names that templates can be given by texts under the names of applied arguments. -/
def stock (s : Store) : List String :=
  let names := (NameMap.ofPairs ((withNames s).map fun name => (name, ()))).map (·.1)
  (templateNames s).flatMap fun template =>
    (NameMap.assignments (rawTexts s) names).map (CloneName.cloneName template)

variable {s s₀ : Store} {G : Int → Prop} {t : Task} {p p' : Progress} {spread : Int × String}

theorem mem_rawTexts (hs : s.Sound G) {v : Int} (hv : s.values.contains v) :
    (s.read v).raw ∈ rawTexts s := by
  obtain ⟨row, hrow⟩ := contains_iff.mp hv
  rw [hs.read_eq hrow]
  exact List.mem_cons_of_mem _ (List.mem_map_of_mem (mem_rows_of_get? hrow))

theorem mem_withNames {x : Int} {node : DirectiveNode} (hn : node ∈ s.nodes .selection x)
    (hw : node.name = Framework.withTag) {a : String × Value} (ha : a ∈ node.arguments) :
    a.1 ∈ withNames s := by
  obtain ⟨⟨id, u⟩, hu, rfl⟩ := List.mem_map.mp hn
  obtain ⟨⟨aid, arg⟩, harg, rfl⟩ := List.mem_map.mp ha
  obtain ⟨hmem, howner⟩ := List.mem_filter.mp harg
  have hget := get?_of_mem (List.mem_filter.mp hu).1
  have howner : arg.owner = id := of_decide_eq_true howner
  refine List.mem_map_of_mem (List.mem_filter.mpr
    ⟨mem_rows_of_get? (get?_of_mem hmem), ?_⟩)
  rw [howner, hget]
  exact decide_eq_true hw

theorem raw_mem_of_node (hs : s.Sound G) {x : Int} {node : DirectiveNode}
    (hn : node ∈ s.nodes .selection x) {a : String × Value} (ha : a ∈ node.arguments) :
    a.2.raw ∈ rawTexts s := by
  obtain ⟨use, _, rfl⟩ := List.mem_map.mp hn
  obtain ⟨⟨aid, arg⟩, harg, rfl⟩ := List.mem_map.mp ha
  have hget := get?_of_mem (List.mem_filter.mp harg).1
  exact mem_rawTexts hs (hs.closed.contains_of_owns (owns_directive hget))

theorem mem_stock {target : Int} {row : DocumentRow}
    (found : s.findDocument spread.2 .fragment = some (target, row))
    (declares : s.variablesOf target ≠ []) {m : NameMap String} (hm : NameMap.Ascending m)
    (h : ∀ e ∈ m, e.1 ∈ withNames s ∧ e.2 ∈ rawTexts s) :
    CloneName.cloneName row.name m ∈ stock s := by
  obtain ⟨hrow, _, hkind⟩ := findDocument_eq_some found
  refine List.mem_flatMap.mpr ⟨row.name, ?_, List.mem_map_of_mem ?_⟩
  · refine List.mem_map.mpr ⟨(target, row), List.mem_filter.mpr ⟨mem_of_get? hrow, ?_⟩, rfl⟩
    simp [hkind, declares]
  · refine NameMap.mem_assignments ?_ hm fun e he => ⟨?_, (h e he).2⟩
    · exact List.pairwise_map.mpr (NameMap.ascending_ofPairs _)
    · exact NameMap.mem_names_ofPairs (e := (e.1, ()))
        (List.mem_map_of_mem (f := fun name => (name, ())) (h e he).1)

/-! ## Texts stay within the stock -/

/-- The scope of a task binds only texts that are in stock. -/
def Stocked (s₀ s : Store) (t : Task) : Prop :=
  ∀ name v, NameMap.get? name t.scope = some v → (s.read v).raw ∈ rawTexts s₀

theorem Stocked.advances {s' : Store} (h : Stocked s₀ s t) (ht : Scoped s t) (ha : Advances s s') :
    Stocked s₀ s' t := by
  intro name v hv
  rw [(ha.rooted v (ht.rooted name v hv).1).2]
  exact h name v hv

theorem Stocked.resolved (h : Stocked s₀ s t) {v : Value} (hv : v.raw ∈ rawTexts s₀) :
    (resolved s t.scope v).raw ∈ rawTexts s₀ := by
  obtain ⟨kind, raw, children⟩ := v
  rw [Inlining.resolved]
  split
  · cases hg : NameMap.get? raw t.scope with
    | none =>
      rw [Store.meaning, hg]
      exact hv
    | some w =>
      rw [Store.meaning, hg]
      exact h raw w hg
  · exact hv

theorem Stocked.applied_mem (h : Stocked s₀ s t) (hs₀ : s₀.Sound G) {x x₀ : Int} (hn : s.nodes .selection x = s₀.nodes .selection x₀)
    {a : DirectiveArgument} (ha : a ∈ (s.directives .selection).arguments.rows)
    (hw : isWith s x a.owner) :
    a.name ∈ withNames s₀ ∧ (Inlining.resolved s t.scope (s.read a.value)).raw ∈ rawTexts s₀ := by
  obtain ⟨node, hnode, hname, harg⟩ := exists_node_of_isWith ha hw
  rw [hn] at hnode
  exact ⟨mem_withNames hnode hname harg, h.resolved (raw_mem_of_node hs₀ hnode harg)⟩

theorem Stocked.appliedTexts (h : Stocked s₀ s t) (ht : Scoped s t) (hs : s.Sound G)
    (hs₀ : s₀.Sound G) {x x₀ : Int} (hn : s.nodes .selection x = s₀.nodes .selection x₀) :
    NameMap.Ascending (Inlining.appliedTexts s t x) ∧
    ∀ e ∈ Inlining.appliedTexts s t x, e.1 ∈ withNames s₀ ∧ e.2 ∈ rawTexts s₀ := by
  obtain ⟨w, hw, happlied⟩ := ht.applied_pairs hs x
  refine ⟨List.pairwise_map.mpr (NameMap.ascending_ofPairs _), fun e he => ?_⟩
  obtain ⟨b, hb, rfl⟩ := List.mem_map.mp he
  rw [happlied] at hb
  obtain ⟨a, ha, rfl⟩ := List.mem_map.mp (NameMap.mem_ofPairs hb)
  obtain ⟨ha, hwith⟩ := List.mem_filter.mp ha
  obtain ⟨hname, hraw⟩ := h.applied_mem hs₀ hn ha hwith
  exact ⟨hname, by rw [(hw a ha).2]; exact hraw⟩

theorem Makes.stocked {s' : Store} {task : Task} {target : Int} {row : DocumentRow} {ids : CopyMap}
    {rows : Int → SelectionRow → SelectionRow}
    (hm : Makes G s₀ t s spread s' task target row ids rows) (h : Stocked s₀ s t)
    (hs₀ : s₀.Sound G) (ha : Advances s₀ s) {x₀ : Int}
    (hn : s.nodes .selection spread.1 = s₀.nodes .selection x₀) : Stocked s₀ s' task := by
  intro name v hv
  have hmeaning : boundValue s t.scope target spread.1 name = some (s'.read v) := by
    rw [← hm.meaning, Store.meaning, hv]
    rfl
  obtain ⟨d, hd, hvalue⟩ := Option.map_eq_some_iff.mp hmeaning
  rw [← hvalue]
  split
  · next a hlast =>
    obtain ⟨ha, hwith⟩ := List.mem_filter.mp (List.mem_of_getLast? hlast)
    exact (h.applied_mem hs₀ hn ha (Bool.and_eq_true_iff.mp hwith).1).2
  · next value _ hdefault =>
    -- A default is there from the start.
    obtain ⟨e, he, rfl⟩ := List.mem_map.mp (List.mem_filter.mp (List.mem_of_getLast? hd)).1
    have ho : s₀.owns (.default e.1) = some value := by
      rw [ha.variablesOf] at he
      rw [Store.owns, get?_of_mem (List.mem_filter.mp he).1]
      exact hdefault
    rw [(ha.rooted value (hs₀.rooted ho trivial)).2]
    exact mem_rawTexts hs₀ (hs₀.closed.contains_of_owns ho)
  · exact List.mem_cons_self

/-- What the work on a task keeps. -/
structure Saving (s₀ : Store) (p : Progress) : Prop where
  draws : Draws s₀ p.store
  clones : ∀ name ∈ p.clones, name ∈ stock s₀
  tasks : ∀ task ∈ p.tasks, Stocked s₀ p.store task

theorem Visit.saving (hv : Visit G t p spread p') (hs₀ : s₀.Sound G) {n : Nat}
    {rest : List (Int × String)} (hw : Working G s₀ t n (spread :: rest) p)
    (h : Saving s₀ p) (ht : Stocked s₀ p.store t) : Saving s₀ p' := by
  obtain ⟨hx, q, hq, _, hchild⟩ := hw.spreads spread List.mem_cons_self
  obtain ⟨q₀, _, _, resembles⟩ := h.draws q hq
  have hn : p.store.nodes .selection spread.1 = s₀.nodes .selection q₀.child :=
    hchild ▸ resembles.nodes
  have ha := hv.advances hw.held
  have old : ∀ task ∈ p.tasks, Stocked s₀ p'.store task := fun task hm =>
    (h.tasks task hm).advances (hw.tasks task hm).1.scope ha
  refine ⟨h.draws.trans (hv.draws hw.held hx), ?_, ?_⟩
  · cases hv with
    | settled => exact h.clones
    | led => exact h.clones
    | made found declares named =>
      intro name hname
      rcases List.mem_append.mp hname with hname | hname
      · exact h.clones name hname
      · obtain rfl := List.mem_singleton.mp hname
        obtain ⟨found₀, declares₀⟩ := hw.held.advances.template hs₀.closed found declares
        obtain ⟨ascending, within⟩ := ht.appliedTexts hw.due.scope hw.held.sound hs₀ hn
        exact named ▸ mem_stock found₀ declares₀ ascending within
  · rcases hv.tasks with same | ⟨task, same⟩
    · exact same ▸ old
    · obtain ⟨_, _, _, _, _, _, _, makes⟩ := hv.makes hs₀.closed hw.held hw.due.scope hx same
      intro task' hm
      rw [same] at hm
      rcases List.mem_append.mp hm with hm | hm
      · exact old task' hm
      · obtain rfl := List.mem_singleton.mp hm
        exact makes.stocked ht hs₀ hw.held.advances hn

/-- What a run keeps: all names are from the stock, and there are as many as clones. -/
structure Thrifty (s₀ : Store) (w : Inlining) : Prop where
  draws : Draws s₀ w.store
  clones : ∀ name ∈ w.clones, name ∈ stock s₀
  tasks : ∀ t, t ∈ w.followUps ∨ t ∈ w.roots → Stocked s₀ w.store t
  made : w.made = w.clones.length

theorem Stepped.thrifty {w w₁ : Inlining} {u : Store} (hst : Stepped G s₀ w t w₁ u p)
    (hs₀ : s₀.Sound G) (hr : Running G s₀ w) (h : Thrifty s₀ w) : Thrifty s₀ w.step := by
  obtain ⟨hnext, due, performed, -, hstep⟩ := hst
  have hopen := performed.opened.advances hr.held.sound
  have hall := hopen.trans (performed.visits.advances hs₀.closed performed.start)
  -- The tasks that are left, and the one that is taken.
  have pending : (t ∈ w.followUps ∨ t ∈ w.roots) ∧
      ∀ t', t' ∈ w₁.followUps ∨ t' ∈ w₁.roots → t' ∈ w.followUps ∨ t' ∈ w.roots := by
    rcases next?_cases hnext with ⟨rest, hf, rfl⟩ | ⟨hf, rest, hroots, rfl⟩
    · exact ⟨.inl (by simp [hf]), fun t' => Or.imp_left fun hm => by simp [hf, hm]⟩
    · exact ⟨.inr (by simp [hroots]), fun t' => Or.imp_right fun hm => by simp [hroots, hm]⟩
  have inScope : ∀ t', t' ∈ w.followUps ∨ t' ∈ w.roots → Scoped w.store t' := fun t' hm =>
    hm.elim (fun hm => (hr.followUps t' hm).1.scope) fun hm => (hr.roots t' hm).1.scope
  have saving : Saving s₀ p ∧ Stocked s₀ p.store t := by
    refine performed.visits.induction (P := fun _ q => Saving s₀ q ∧ Stocked s₀ q.store t)
      hs₀.closed performed.start ⟨⟨h.draws.trans (performed.opened.draws hr.held.sound), h.clones,
        nofun⟩, (h.tasks t pending.1).advances due.scope hopen⟩ ?_
    intro spread rest q q' hw hv hq
    exact ⟨hv.saving hs₀ hw hq.1 hq.2, hq.2.advances hw.due.scope (hv.advances hw.held)⟩
  rw [hstep]
  refine ⟨saving.1.draws, saving.1.clones, fun t' hm => ?_, ?_⟩
  · have left : t' ∈ w₁.followUps ∨ t' ∈ w₁.roots → Stocked s₀ p.store t' := fun hm =>
      (h.tasks t' (pending.2 t' hm)).advances (inScope t' (pending.2 t' hm)) hall
    rcases hm with hm | hm
    · rcases List.mem_append.mp hm with hm | hm
      · exact left (.inl hm)
      · exact saving.1.tasks t' hm
    · exact left (.inr hm)
  · have hlength := performed.visits.length
    simp only [List.length_nil, h.made] at hlength ⊢
    omega

theorem Handed.thrifty (h : Handed G s) (n : Nat) : Thrifty s ((start s).run n) := by
  refine (h.running.run_induction h.sound.closed h.lasting (P := fun w => Thrifty s w)
    ⟨.refl h.sound.closed, nofun, ?_, rfl⟩ (fun w hr hP => ?_) n).2
  · rintro t (ht | ht)
    · exact absurd ht List.not_mem_nil
    · obtain ⟨d, _, rfl⟩ := List.mem_map.mp ht
      exact nofun
  · cases hnext : w.next? with
    | none => rwa [Inlining.step, hnext]
    | some e =>
      obtain ⟨u, p, hst⟩ := hr.stepped h.sound.closed h.lasting hnext
      exact hst.thrifty h.sound hr hP

/-- The inliner is done after as many tasks as there are roots and names in stock. At any time as
many clones were made as names given out, no name was given out twice, and all are in stock. -/
theorem inlining_ends {project : Project} {s : Store} (h : project.handover? = some s) :
    let limit := (rootDocuments s).length + (stock s).length
    ((start s).run limit).isDone = true ∧
    s.inlineArguments.1 = ((start s).run limit).store ∧
    ∀ n, let w := (start s).run n
      w.made = w.clones.length ∧ w.clones.Nodup ∧ ∀ name ∈ w.clones, name ∈ stock s := by
  obtain ⟨G, handed⟩ := Inlining.handed h
  have names : ∀ n, let w := (start s).run n
      w.made = w.clones.length ∧ w.clones.Nodup ∧ ∀ name ∈ w.clones, name ∈ stock s := fun n =>
    ⟨(handed.thrifty n).made,
      (handed.running.run handed.sound.closed handed.lasting n).held.distinct,
      (handed.thrifty n).clones⟩
  have done : ((start s).run ((rootDocuments s).length + (stock s).length)).isDone = true := by
    refine handed.running.isDone handed.sound.closed handed.lasting
      (fun m => (List.subperm_of_subset (names m).2.1 (names m).2.2).length_le) ?_
    simp only [remaining, start, List.length_nil, List.length_map]
    omega
  refine ⟨done, ?_, names⟩
  rw [inlineArguments_store, finished, run_eq_of_isDone handed.isDone done]

/-- The inliner is done with the sample after as many tasks. -/
theorem sample_inlining_ends : ∃ s, sample.handover? = some s ∧
    ((start s).run ((rootDocuments s).length + (stock s).length)).isDone = true := by
  obtain ⟨s, run⟩ := exists_sampleRun
  exact ⟨s, run.handed, (inlining_ends run.handed).1⟩

end Inlining

end GraphDoc
