import GraphDoc.Proofs.FragmentArgument.Settling
import GraphDoc.Proofs.Stages
import GraphDoc.Proofs.Variables

/-!
# Hygiene of the inliner

If the documents are self-contained, the scope of every task covers the variables of its document,
and the values that it binds have no variables. So the field arguments of a document have none once
the document is worked on.
-/

set_option autoImplicit false

namespace GraphDoc

open Table

mutual

theorem Value.mem_varNames_substitute {σ : String → Option Value}
    (hσ : ∀ n w, σ n = some w → w.varNames = []) {n : String} :
    (v : Value) → n ∈ (v.substitute σ).varNames → n ∈ v.varNames ∧ σ n = none
  | .node kind raw children => fun h => by
    rw [Value.substitute] at h
    rw [Value.varNames]
    by_cases hk : kind = .var
    · rw [if_pos hk] at h ⊢
      cases hr : σ raw with
      | some w =>
        rw [hr, Option.getD_some, hσ raw w hr] at h
        cases h
      | none =>
        rw [hr, Option.getD_none, Value.varNames, if_pos hk] at h
        exact ⟨h, List.mem_singleton.mp h ▸ hr⟩
    · rw [if_neg hk] at h ⊢
      rw [Value.varNames, if_neg hk] at h
      exact Value.mem_varNamesIn_substituteAll hσ children h

theorem Value.mem_varNamesIn_substituteAll {σ : String → Option Value}
    (hσ : ∀ n w, σ n = some w → w.varNames = []) {n : String} :
    (children : List (Option String × Value)) →
    n ∈ Value.varNamesIn (Value.substituteAll σ children) →
    n ∈ Value.varNamesIn children ∧ σ n = none
  | [] => fun h => by
    rw [Value.substituteAll, Value.varNamesIn] at h
    cases h
  | (name?, v) :: rest => fun h => by
    rw [Value.substituteAll, Value.varNamesIn, List.mem_append] at h
    rw [Value.varNamesIn, List.mem_append]
    rcases h with h | h
    · exact (Value.mem_varNames_substitute hσ v h).imp_left .inl
    · exact (Value.mem_varNamesIn_substituteAll hσ rest h).imp_left .inr

end

namespace Store

variable {s s' s'' : Store} {G : Int → Prop} {d : Int} {σ : String → Option Value}

/-- All variables on the selections of a document are known. -/
def Covers (s : Store) (d : Int) (known : String → Prop) : Prop :=
  ∀ q ∈ s.placements.rows, q.document = d → ∀ n ∈ s.variablesOn q.child, known n

/-- The field arguments of a document have no variables. -/
def Plain (s : Store) (d : Int) : Prop :=
  ∀ q ∈ s.placements.rows, q.document = d → ∀ a ∈ s.arguments q.child, a.2.varNames = []

/-- What a `@with` applies is a variable, or there is none in it. -/
def Whole (s : Store) : Prop := ∀ q ∈ s.placements.rows, ∀ node ∈ s.nodes .selection q.child,
  node.name = Framework.withTag → ∀ a ∈ node.arguments, a.2.kind = .var ∨ a.2.varNames = []

/-- The documents of `s` have no more variables in `s'`. -/
structure Tames (s s' : Store) : Prop where
  documents : ∀ d, s.documents.contains d = true → s'.documents.contains d = true
  origin : ∀ q' ∈ s'.placements.rows, s.documents.contains q'.document = true →
    ∃ q ∈ s.placements.rows, q.document = q'.document ∧ ∃ values,
      Resembles values s q.child s' q'.child ∧ ∀ v, (values v).varNames ⊆ v.varNames

theorem Tames.trans (h : Tames s s') (h' : Tames s' s'') : Tames s s'' := by
  refine ⟨fun d hd => h'.documents d (h.documents d hd), fun q'' hq'' hd => ?_⟩
  obtain ⟨q', hq', hdoc', _, alike', fewer'⟩ := h'.origin q'' hq'' (h.documents _ hd)
  obtain ⟨q, hq, hdoc, _, alike, fewer⟩ := h.origin q' hq' (hdoc'.symm ▸ hd)
  exact ⟨q, hq, hdoc.trans hdoc', _, alike.trans alike',
    fun v => List.Subset.trans (fewer' _) (fewer v)⟩

theorem mem_variablesOn_of_argument {x : Int} {a : String × Value} (ha : a ∈ s.arguments x)
    {n : String} (hn : n ∈ a.2.varNames) : n ∈ s.variablesOn x :=
  List.mem_append_left _ (List.mem_flatMap.mpr ⟨a, ha, hn⟩)

theorem mem_variablesOn_of_node {x : Int} {node : DirectiveNode}
    (hnode : node ∈ s.nodes .selection x) {a : String × Value} (ha : a ∈ node.arguments)
    {n : String} (hn : n ∈ a.2.varNames) : n ∈ s.variablesOn x :=
  List.mem_append_right _ (List.mem_flatMap.mpr ⟨node, hnode, List.mem_flatMap.mpr ⟨a, ha, hn⟩⟩)

theorem Resembles.mem_variablesOn {values : Value → Value} {x x' : Int}
    (h : Resembles values s x s' x') (fewer : ∀ v, (values v).varNames ⊆ v.varNames) {n : String}
    (hn : n ∈ s'.variablesOn x') : n ∈ s.variablesOn x := by
  rcases List.mem_append.mp hn with hn | hn
  · obtain ⟨a', ha', hn⟩ := List.mem_flatMap.mp hn
    rw [h.arguments] at ha'
    obtain ⟨a, ha, rfl⟩ := List.mem_map.mp ha'
    exact mem_variablesOn_of_argument ha (fewer _ hn)
  · rw [h.nodes] at hn
    exact List.mem_append_right _ hn

theorem Tames.covers (h : Tames s s') (hd : s.documents.contains d)
    {known : String → Prop} (hc : s.Covers d known) : s'.Covers d known := by
  rintro q' hq' rfl n hn
  obtain ⟨q, hq, hdoc, _, alike, fewer⟩ := h.origin q' hq' hd
  exact hc q hq hdoc n (alike.mem_variablesOn fewer hn)

theorem Tames.plain (h : Tames s s') (hd : s.documents.contains d) (hc : s.Plain d) :
    s'.Plain d := by
  rintro q' hq' rfl a' ha'
  obtain ⟨q, hq, hdoc, _, alike, fewer⟩ := h.origin q' hq' hd
  rw [alike.arguments] at ha'
  obtain ⟨a, ha, rfl⟩ := List.mem_map.mp ha'
  refine List.eq_nil_iff_forall_not_mem.mpr fun n hn => ?_
  have hn := fewer _ hn
  rw [hc q hq hdoc a ha] at hn
  cases hn

theorem Draws.whole (h : Draws s s') (hw : s.Whole) : s'.Whole := by
  intro q' hq' node hnode
  obtain ⟨q, hq, _, alike⟩ := h q' hq'
  exact hw q hq node (alike.nodes ▸ hnode)

section

variable (h : Substituted G s d σ s') (hσ : ∀ n w, σ n = some w → w.varNames = [])
include h hσ

theorem Substituted.tames (hs : s.Sound G) : Tames s s' := by
  refine ⟨fun c hc => ?_, fun q hq _ => ?_⟩
  · rw [h.rest]
    exact hc
  have hq : q ∈ s.placements.rows := by
    rw [h.rest] at hq
    exact hq
  by_cases hin : ∃ r ∈ s.placements.rows, r.document = d ∧ r.child = q.child
  · obtain ⟨r, hr, hd, hc⟩ := hin
    exact ⟨q, hq, rfl, _, hc ▸ h.resembles_inside hs hr hd,
      fun v n hn => (Value.mem_varNames_substitute hσ v hn).1⟩
  · exact ⟨q, hq, rfl, _, h.resembles_outside hs (hs.closed.placements q hq).2.1
      fun r hr hd hc => hin ⟨r, hr, hd, hc⟩, fun _ _ hn => hn⟩

theorem Substituted.plain (hc : s.Covers d fun n => (σ n).isSome) : s'.Plain d := by
  intro q hq hd a' ha'
  have hq : q ∈ s.placements.rows := by
    rw [h.rest] at hq
    exact hq
  rw [h.inner q hq hd] at ha'
  obtain ⟨a, ha, rfl⟩ := List.mem_map.mp ha'
  refine List.eq_nil_iff_forall_not_mem.mpr fun n hn => ?_
  obtain ⟨hn, hnone⟩ := Value.mem_varNames_substitute hσ a.2 hn
  have hsome : (σ n).isSome := hc q hq hd n (mem_variablesOn_of_argument ha hn)
  rw [hnone] at hsome
  cases hsome

end

end Store

namespace Inlining

open Store

variable {s s' s₀ : Store} {G : Int → Prop} {t task : Task} {p p' : Progress}
  {spread : Int × String}

/-! ## Tasks -/

/-- The scope of a task covers its document and binds values without variables. -/
structure Closes (s : Store) (t : Task) : Prop where
  values : ∀ n v, s.meaning t.scope n = some v → v.varNames = []
  covers : s.Covers t.document fun n => (s.meaning t.scope n).isSome = true

theorem Closes.tames (h : Closes s t) (due : Due s₀ s t) (ha : Advances s s')
    (ht : Tames s s') : Closes s' t := by
  have same : s'.meaning t.scope = s.meaning t.scope :=
    ha.meaning fun n v hv => (due.scope.rooted n v hv).1
  refine ⟨fun n v hv => h.values n v (same ▸ hv), ?_⟩
  rw [same]
  exact ht.covers due.here h.covers

theorem Visit.tames (hv : Visit G t p spread p') (h : Held G s₀ p.clones p.null? p.store)
    (hx : IsSpread p.store spread) : Tames p.store p'.store := by
  refine ⟨fun d hd => (hv.advances h).documents.contains hd, fun q' hq' hd => ?_⟩
  obtain ⟨q, hq, alike, _, rfl | ⟨hnew, _⟩⟩ := hv.origin h hx hq'
  · exact ⟨q', hq, rfl, _, alike, fun _ _ hn => hn⟩
  · have hle := le_issued_of_contains hd
    have := p.store.documents.issued_lt_nextId
    omega

theorem Closes.resolved (h : Closes s t) {v : Value}
    (whole : v.kind = .var ∨ v.varNames = [])
    (covered : ∀ n ∈ v.varNames, (s.meaning t.scope n).isSome) :
    (Inlining.resolved s t.scope v).varNames = [] := by
  obtain ⟨kind, raw, children⟩ := v
  rw [Inlining.resolved]
  by_cases hk : kind = .var
  · rw [if_pos hk]
    have hraw : raw ∈ (Value.node kind raw children).varNames := by
      rw [Value.varNames, if_pos hk]
      exact List.mem_singleton.mpr rfl
    obtain ⟨w, hw⟩ := Option.isSome_iff_exists.mp (covered raw hraw)
    rw [hw, Option.getD_some]
    exact h.values raw w hw
  · rw [if_neg hk]
    exact whole.resolve_left hk

theorem Closes.boundValue (h : Closes s t) (hs₀ : s₀.Sound G) (ha : Advances s₀ s)
    (hc : s₀.SelfContained) (hw : s.Whole) {q : Placement} (hq : q ∈ s.placements.rows)
    (hd : q.document = t.document) {target : Int} {n : String} {v : Value}
    (hv : Inlining.boundValue s t.scope target q.child n = some v) : v.varNames = [] := by
  obtain ⟨declared, hdeclared, rfl⟩ := Option.map_eq_some_iff.mp hv
  cases hlast : lastWith s q.child n with
  | some a =>
    obtain ⟨hrow, hwith⟩ := List.mem_filter.mp (List.mem_of_getLast? hlast)
    rw [Bool.and_eq_true] at hwith
    obtain ⟨node, hnode, htag, harg⟩ := exists_node_of_isWith hrow hwith.1
    exact h.resolved (hw q hq node hnode htag _ harg) fun name hname =>
      h.covers q hq hd name (mem_variablesOn_of_node hnode harg hname)
  | none =>
    cases hdefault : declared.default? with
    | none =>
      rw [Value.varNames, if_neg nofun]
      rfl
    | some value =>
      -- The default is that of a declaration which was there from the start.
      obtain ⟨hm, _⟩ := List.mem_filter.mp (List.mem_of_getLast? hdeclared)
      obtain ⟨⟨id, _⟩, hentry, rfl⟩ := List.mem_map.mp hm
      rw [ha.variablesOf] at hentry
      obtain ⟨hget, _⟩ := mem_variablesOf.mp hentry
      have howns : s₀.owns (.default id) = some value := by
        rw [Store.owns, hget]
        exact hdefault
      have hread : s.read value = s₀.read value :=
        (ha.rooted value (hs₀.rooted howns trivial)).2
      exact (congrArg Value.varNames hread).trans
        (hc.defaults _ (mem_rows_of_get? hget) value hdefault)

/-- Everything that a fragment declares is bound. -/
theorem isSome_boundValue {scope : Scope} {target x : Int} {n : String}
    (hn : n ∈ s.declaredNames target) : (boundValue s scope target x n).isSome := by
  obtain ⟨⟨id, v⟩, hv, rfl⟩ := List.mem_map.mp hn
  rw [Inlining.boundValue, Option.isSome_map, List.getLast?_isSome]
  exact List.ne_nil_of_mem (List.mem_filter.mpr ⟨List.mem_map_of_mem hv, decide_eq_true rfl⟩)

/-- The documents that were there use what they declare. -/
def Templates (s₀ s : Store) : Prop := ∀ d, s₀.documents.contains d = true →
  s.Covers d (· ∈ s₀.declaredNames d)

theorem Visit.closes (hv : Visit G t p spread p') (hs₀ : s₀.Sound G)
    (h : Held G s₀ p.clones p.null? p.store) (ht : Scoped p.store t)
    (hx : IsSpread p.store spread) {q : Placement} (hq : q ∈ p.store.placements.rows)
    (hd : q.document = t.document) (hchild : q.child = spread.1)
    (htask : p'.tasks = p.tasks ++ [task]) (closes : Closes p.store t) (hc : s₀.SelfContained)
    (hw : p.store.Whole) (templates : Templates s₀ p.store) : Closes p'.store task := by
  obtain ⟨target, row, ids, rows, found, declares, _, makes⟩ :=
    hv.makes hs₀.closed h ht hx htask
  obtain ⟨found₀, _⟩ := h.advances.template hs₀.closed found declares
  refine ⟨fun n v hvalue => ?_, fun q' hq' hdoc n hn => ?_⟩
  · rw [makes.meaning, ← hchild] at hvalue
    exact closes.boundValue hs₀ h.advances hc hw hq hd hvalue
  · obtain ⟨q₀, hq₀, alike, _, same | ⟨_, row', hfound⟩⟩ := hv.origin h hx hq'
    · have hle := le_issued_of_contains (h.sound.closed.placements q₀ hq₀).2.2
      have := p.store.documents.issued_lt_nextId
      rw [makes.document, same] at hdoc
      omega
    · obtain ⟨htarget, _⟩ := Prod.mk.inj (Option.some.inj (found.symm.trans hfound))
      have here := contains_of_get? (findDocument_eq_some found₀).1
      rw [alike.variablesOn] at hn
      have hdeclared := templates target here q₀ hq₀ htarget.symm n hn
      rw [declaredNames, ← h.advances.variablesOf] at hdeclared
      rw [makes.meaning]
      exact isSome_boundValue hdeclared

/-- The work on a task that began with `s`. -/
structure Closing (s₀ s : Store) (t : Task) (p : Progress) : Prop where
  tames : Tames s p.store
  draws : Draws s₀ p.store
  here : Closes p.store t
  tasks : ∀ task ∈ p.tasks, Closes p.store task
  new : ∀ d, p.store.documents.contains d = true → s.documents.contains d = true ∨
    ∃ task ∈ p.tasks, task.document = d

theorem Closing.visit {n : Nat} {rest : List (Int × String)} (hcl : Closing s₀ s t p)
    (hw : Working G s₀ t n (spread :: rest) p) (hv : Visit G t p spread p') (hs₀ : s₀.Sound G)
    (hc : s₀.SelfContained) (whole : s₀.Whole) (templates : Templates s₀ s)
    (older : ∀ d, s₀.documents.contains d → s.documents.contains d) :
    Closing s₀ s t p' := by
  obtain ⟨hx, q, hq, hd, hchild⟩ := hw.spreads spread List.mem_cons_self
  have ha := hv.advances hw.held
  have tames := hv.tames hw.held hx
  have kept : ∀ task ∈ p.tasks, Closes p'.store task := fun task hm =>
    (hcl.tasks task hm).tames (hw.tasks task hm).1 ha tames
  refine ⟨hcl.tames.trans tames, hcl.draws.trans (hv.draws hw.held hx),
    hcl.here.tames hw.due ha tames, ?_, fun d hd => ?_⟩
  · rcases hv.tasks with same | ⟨task, same⟩
    · exact same ▸ kept
    · rw [same]
      refine List.forall_mem_append.mpr ⟨kept, List.forall_mem_singleton.mpr ?_⟩
      exact hv.closes hs₀ hw.held hw.due.scope hx hq hd hchild same hcl.here hc
        (hcl.draws.whole whole) fun d hd => hcl.tames.covers (older d hd) (templates d hd)
  · rcases hv.contains hd with hd | ⟨_, task, hm, hdoc⟩
    · refine (hcl.new d hd).imp_right ?_
      rintro ⟨task, hm, hdoc⟩
      exact ⟨task, hv.mem_tasks hm, hdoc⟩
    · exact .inr ⟨task, hm, hdoc⟩

/-- A task leaves its document plain and closes the clones that it makes. -/
theorem Performed.closing {clones : List String} {null? : Option Int} {u : Store}
    (h : Performed G s₀ t s clones null? u p) (hs₀ : s₀.Sound G) (hs : s.Sound G)
    (due : Due s₀ s t) (closes : Closes s t) (draws : Draws s₀ s) (hc : s₀.SelfContained)
    (whole : s₀.Whole) (templates : Templates s₀ s)
    (older : ∀ d, s₀.documents.contains d → s.documents.contains d) :
    Closing s₀ s t p ∧ p.store.Plain t.document := by
  have ha := h.opened.advances hs
  have tames := h.opened.tames closes.values hs
  have plain := h.opened.plain closes.values closes.covers
  have hdocuments : u.documents = s.documents := by rw [h.opened.rest]
  have started : Closing s₀ s t ⟨u, clones, null?, []⟩ :=
    ⟨tames, draws.trans (h.opened.draws hs), closes.tames due ha tames, nofun,
      fun d hd => .inl (hdocuments ▸ hd)⟩
  refine h.visits.induction (P := fun _ q => Closing s₀ s t q ∧ q.store.Plain t.document)
    hs₀.closed h.start ⟨started, plain⟩ fun spread rest q q' hw hv hq => ?_
  refine ⟨hq.1.visit hw hv hs₀ hc whole templates older, ?_⟩
  exact (hv.tames hw.held (hw.spreads spread List.mem_cons_self).1).plain hw.due.here hq.2

/-! ## The run -/

/-- Every task closes its document, and documents without arguments are plain once they are worked
on. -/
structure Hygiene (s₀ : Store) (w : Inlining) : Prop where
  draws : Draws s₀ w.store
  templates : Templates s₀ w.store
  closes : ∀ t, t ∈ w.followUps ∨ t ∈ w.roots → Closes w.store t
  plain : ∀ d, w.store.documents.contains d = true → s₀.variablesOf d = [] →
    Pending w d ∨ w.store.Plain d

theorem hygiene_start (hs : s.Closed) (hc : s.SelfContained) : Hygiene s (start s) where
  draws := .refl hs
  templates := fun d _ q hq hd n hn => hd ▸ hc.declared q hq n hn
  closes := by
    rintro t (ht | ht)
    · cases ht
    obtain ⟨d, hd, rfl⟩ := List.mem_map.mp ht
    obtain ⟨row, hrow, hroot⟩ := mem_rootDocuments.mp hd
    have none_declared : s.variablesOf d = [] := by
      rcases hroot with hk | hnone
      · exact hc.operations d row hrow hk
      · exact hnone
    refine ⟨nofun, fun q hq hd n hn => ?_⟩
    have hdeclared := hc.declared q hq n hn
    rw [show q.document = d from hd, declaredNames, none_declared] at hdeclared
    cases hdeclared
  plain := fun d hd hnone => by
    obtain ⟨row, hrow⟩ := contains_iff.mp hd
    exact .inl ⟨⟨d, []⟩, .inr (List.mem_map.mpr
      ⟨d, mem_rootDocuments.mpr ⟨row, hrow, .inr hnone⟩, rfl⟩), rfl⟩

theorem Stepped.hygiene {w w₁ : Inlining} {u : Store} (hst : Stepped G s₀ w t w₁ u p)
    (hs₀ : s₀.Sound G) (hr : Running G s₀ w) (hc : s₀.SelfContained) (whole : s₀.Whole)
    (h : Hygiene s₀ w) : Hygiene s₀ w.step := by
  have taken : t ∈ w.followUps ∨ t ∈ w.roots := (waiting_iff_of_next? hst.next).mpr (.inl rfl)
  have older : ∀ d, s₀.documents.contains d → w.store.documents.contains d :=
    fun d hd => hr.held.advances.documents.contains hd
  obtain ⟨hcl, plain⟩ := hst.performed.closing hs₀ hr.held.sound hst.due (h.closes t taken)
    h.draws hc whole h.templates older
  have ha : Advances w.store p.store := (hst.performed.opened.advances hr.held.sound).trans
    (hst.performed.visits.advances hs₀.closed hst.performed.start)
  have due : ∀ t', t' ∈ w.followUps ∨ t' ∈ w.roots → Due s₀ w.store t' := by
    rintro t' (ht | ht)
    · exact (hr.followUps t' ht).1
    · exact (hr.roots t' ht).1
  rw [hst.step]
  refine ⟨hcl.draws, fun d hd => hcl.tames.covers (older d hd) (h.templates d hd), fun t' ht' => ?_,
    fun d hd hnone => ?_⟩
  · rw [List.mem_append, or_right_comm] at ht'
    rcases ht' with ht' | ht'
    · have waiting := (waiting_iff_of_next? hst.next).mpr (.inr ht')
      exact (h.closes t' waiting).tames (due t' waiting) ha hcl.tames
    · exact hcl.tasks t' ht'
  · rcases hcl.new d hd with hold | ⟨task, hm, hdoc⟩
    · rcases h.plain d hold hnone with ⟨t', hm, rfl⟩ | hplain
      · rcases (waiting_iff_of_next? hst.next).mp hm with rfl | hm | hm
        · exact .inr plain
        · exact .inl ⟨t', .inl (List.mem_append_left _ hm), rfl⟩
        · exact .inl ⟨t', .inr hm, rfl⟩
      · exact .inr (hcl.tames.plain hold hplain)
    · exact .inl ⟨task, .inl (List.mem_append_right _ hm), hdoc⟩

theorem Handed.plain (h : Handed G s) (hc : s.SelfContained) (whole : s.Whole) {d : Int}
    (hd : (finished s).store.documents.contains d) (hnone : s.variablesOf d = []) :
    (finished s).store.Plain d := by
  have hygiene : Hygiene s (finished s) := by
    refine (h.running.run_induction h.sound.closed h.lasting
      (hygiene_start h.sound.closed hc) ?_ _).2
    intro w hr hP
    cases hnext : w.next? with
    | none => rwa [Inlining.step, hnext]
    | some e =>
      obtain ⟨u, p, hst⟩ := hr.stepped h.sound.closed h.lasting hnext
      exact hst.hygiene h.sound hr hc whole hP
  exact (hygiene.plain d hd hnone).resolve_left (not_pending_of_isDone h.isDone d)

/-- If the loaded documents are self-contained and without pages, no variable is left in the field
arguments of documents without arguments, provided that the inliner gets no variable on a shared
selection and none inside what a `@with` applies. -/
theorem no_variable_is_left {project : Project} {cancelled : Bool} {c : Compiled}
    {loaded s : Store} (h : project.compile cancelled = .ok c) (clean : c.diagnostics = [])
    (loading : project.After .loading loaded) (handover : project.handover? = some s)
    (untagged : ∀ u ∈ (loaded.directives .selection).uses.rows, u.name ≠ Framework.paginateTag)
    (contained : loaded.SelfContained) (unshared : s.Unshared) (whole : s.Whole) :
    ∀ q ∈ c.store.placements.rows, c.store.variablesOf q.document = [] →
      ∃ arguments, c.store.argumentValues q.child = .ok arguments ∧
        ∀ a ∈ arguments, a.2.varNames = [] := by
  obtain ⟨s₀, s₁, prepared, analysed, hstore⟩ := Project.compile_clean h clean
  obtain rfl := loading.unique (.load (.prepare prepared)) nofun
  have handover' := Project.handover?_of_analyse prepared analysed rfl
  obtain rfl := Option.some.inj (handover.symm.trans handover')
  obtain ⟨G, handed⟩ := handed handover
  have running := handed.ran
  rw [hstore, inlineArguments_store]
  intro q hq hnone
  refine ⟨_, running.held.sound.argumentValues_eq q.child, ?_⟩
  refine handed.plain (Project.rewrite_selfContained prepared analysed untagged contained unshared)
    whole (running.held.sound.closed.placements q hq).2.2 ?_ q hq rfl
  rw [← hnone]
  exact (running.held.advances.variablesOf q.document).symm

/-- The hypotheses on loaded documents to be computed. -/
def loadedFit (s : Store) : Bool :=
  (s.directives .selection).uses.rows.all (fun u => u.name != Framework.paginateTag) &&
  s.placements.rows.all (fun q => (s.variablesOn q.child).all (· ∈ s.declaredNames q.document)) &&
  s.documents.entries.all (fun e => e.2.kind = .fragment || s.variablesOf e.1 = []) &&
  s.declarations.rows.all fun v => v.default?.all fun d => (s.read d).varNames = []

theorem of_loadedFit {s : Store} (h : loadedFit s) :
    (∀ u ∈ (s.directives .selection).uses.rows, u.name ≠ Framework.paginateTag) ∧
      s.SelfContained := by
  simp only [loadedFit, Bool.and_eq_true, List.all_eq_true, bne_iff_ne, decide_eq_true_eq,
    Bool.or_eq_true, Option.all_eq_true] at h
  obtain ⟨⟨⟨untagged, declared⟩, operations⟩, defaults⟩ := h
  refine ⟨untagged, declared, fun d row hrow hkind => ?_, defaults⟩
  exact (operations _ (mem_of_get? hrow)).resolve_left hkind

/-- The hypotheses on the sample to be computed. -/
def sampleHygienic (loaded s : Store) : Bool :=
  loadedFit loaded &&
  s.placements.rows.all (fun q => s.placements.rows.all fun q' =>
    q.child != q'.child || q.document = q'.document || s.variablesOn q.child = []) &&
  s.placements.rows.all fun q => (s.nodes .selection q.child).all fun node =>
    node.name != Framework.withTag || node.arguments.all fun a => a.2.kind = .var || a.2.varNames = []

set_option maxRecDepth 100000 in
theorem sample_hygienic :
    (sampleSpelling.analysis?.any fun e => sampleHygienic e.1 (sample.rewrite e.2)) := by
  decide +kernel

/-- No variable is left in the clones of the sample. -/
theorem sample_no_variable_is_left : ∃ c loaded s, sample.compile false = .ok c ∧
    c.diagnostics = [] ∧ sample.After .loading loaded ∧ sample.handover? = some s ∧
    loaded.SelfContained ∧ s.Unshared ∧ s.Whole ∧
    ∀ q ∈ c.store.placements.rows, c.store.variablesOf q.document = [] →
      ∃ arguments, c.store.argumentValues q.child = .ok arguments ∧
        ∀ a ∈ arguments, a.2.varNames = [] := by
  obtain ⟨s₀, s, prepared, analysed, check⟩ := sampleSpelling.exists_of_any sample_hygienic
  obtain ⟨c, compiled, clean, _⟩ := Project.compile_of_analyse prepared analysed
  have handover := Project.handover?_of_analyse prepared analysed rfl
  have loading := Project.After.load (.prepare prepared)
  simp only [sampleHygienic, Bool.and_eq_true, List.all_eq_true, bne_iff_ne, decide_eq_true_eq,
    Bool.or_eq_true] at check
  obtain ⟨⟨fit, unshared⟩, whole⟩ := check
  obtain ⟨untagged, contained⟩ := of_loadedFit fit
  have unshared : (sample.rewrite s).Unshared := fun q hq q' hq' same other => by
    rcases unshared q hq q' hq' with (hne | hdocument) | none
    · exact absurd same hne
    · exact absurd hdocument other
    · exact none
  have whole : (sample.rewrite s).Whole := fun q hq node hnode hname =>
    (whole q hq node hnode).resolve_left fun hne => hne hname
  exact ⟨c, _, _, compiled, clean, loading, handover, contained, unshared, whole,
    no_variable_is_left compiled clean loading handover untagged contained unshared whole⟩

/-! ## A variable inside an applied list -/

/-- Fragment `Outer` applies a list with its argument in it. -/
def wrapping : Project where
  schema := "type Query \x7b users(ids: [String]): String \x7d"
  sources := [{
    filepath := "wrapping.graphql"
    content := "fragment Inner on Query @arguments(x: \x7b type: \"[String]\" \x7d) \x7b
        users(ids: $x)
      \x7d
      fragment Outer on Query @arguments(y: \x7b type: \"String\" \x7d) \x7b
        ...Inner @with(x: [$y])
      \x7d
      query Q \x7b ...Outer @with(y: \"a\") \x7d" }]

set_option maxRecDepth 10000 in
def wrappingSpelling : Spelling wrapping := ⟨_, [_], rfl, rfl⟩

/-- After three tasks the inliner is done, and a variable is left in a document without arguments. -/
def leavesVariable (s : Store) : Bool :=
  let w := (start s).run 3
  w.isDone && w.store.placements.rows.any fun q =>
    w.store.variablesOf q.document = [] && (w.store.arguments q.child).any (·.2.varNames != [])

set_option maxRecDepth 100000 in
theorem wrapping_leavesVariable : (wrappingSpelling.analysis?.any fun e =>
    loadedFit e.1 && leavesVariable (wrapping.rewrite e.2)) := by
  decide +kernel

/-- A variable inside a list that is applied is not resolved and is left in the clone. -/
theorem wrapped_variable_is_left : ∃ c loaded, wrapping.compile false = .ok c ∧
    c.diagnostics = [] ∧ wrapping.After .loading loaded ∧
    (∀ u ∈ (loaded.directives .selection).uses.rows, u.name ≠ Framework.paginateTag) ∧
    loaded.SelfContained ∧ ∃ q ∈ c.store.placements.rows, c.store.variablesOf q.document = [] ∧
      ∃ arguments, c.store.argumentValues q.child = .ok arguments ∧
        ∃ a ∈ arguments, a.2.varNames ≠ [] := by
  obtain ⟨s₀, s, prepared, analysed, check⟩ := wrappingSpelling.exists_of_any wrapping_leavesVariable
  obtain ⟨c, compiled, clean, hstore⟩ := Project.compile_of_analyse prepared analysed
  obtain ⟨G, handed⟩ := handed (Project.handover?_of_analyse prepared analysed rfl)
  simp only [leavesVariable, Bool.and_eq_true, List.any_eq_true, decide_eq_true_eq,
    bne_iff_ne] at check
  obtain ⟨fit, done, q, hq, plain, a, ha, left⟩ := check
  obtain ⟨untagged, contained⟩ := of_loadedFit fit
  refine ⟨c, _, compiled, clean, .load (.prepare prepared), untagged, contained, ?_⟩
  rw [hstore, Project.transform, inlineArguments_store, handed.finished_eq done]
  have sound := (handed.running.run handed.sound.closed handed.lasting 3).held.sound
  exact ⟨q, hq, plain, _, sound.argumentValues_eq q.child, a, ha, left⟩

end Inlining

end GraphDoc
