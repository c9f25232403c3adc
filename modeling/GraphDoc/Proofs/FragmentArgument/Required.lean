import GraphDoc.Proofs.FragmentArgument.Hygiene
import GraphDoc.Proofs.FragmentArgument.Instances
import GraphDoc.Proofs.Supplied

/-!
# Required arguments in scopes

What a spread in a clone applies is what a spread of the template applies, and a variable stands for
what the scope of the clone binds. So null reaches a required argument only if a spread leaves the
argument out or forwards a variable that may be null. Validation rules out the first for spreads that
documents are written with, but not for fields that become spreads later on.
-/

set_option autoImplicit false

namespace GraphDoc

open Table

namespace Inlining

open Store

variable {s s₀ u : Store} {G : Int → Prop} {t task : Task} {p p' : Progress} {w w₁ : Inlining}
  {spread : Int × String} {clones : List String} {origin d : Int}

/-! ## Where spreads come from -/

/-- Selection `x` has the directives of a selection of document `origin`, and its name unless it was
led to a clone. -/
def Stems (s₀ : Store) (origin : Int) (clones : List String) (s : Store) (x : Int) : Prop :=
  ∃ q ∈ s₀.placements.rows, q.document = origin ∧
    s.nodes .selection x = s₀.nodes .selection q.child ∧
    ∀ row, s.selections.get? x = some row → ∃ row₀, s₀.selections.get? q.child = some row₀ ∧
      row.kind = row₀.kind ∧ (row.name = row₀.name ∨ row.name ∈ clones)

/-- The selections of document `d` stem from `origin`. -/
def Derives (s₀ : Store) (origin : Int) (clones : List String) (s : Store) (d : Int) : Prop :=
  ∀ q ∈ s.placements.rows, q.document = d → Stems s₀ origin clones s q.child

theorem derives_refl (s : Store) (clones : List String) (d : Int) : Derives s d clones s d :=
  fun q hq hd => ⟨q, hq, hd, rfl, fun row hrow => ⟨row, hrow, rfl, .inl rfl⟩⟩

theorem Derives.substituted {σ : String → Option Value} {c : Int}
    (h : Derives s₀ origin clones s d) (hu : Substituted G s c σ u) (hs : s.Sound G) :
    Derives s₀ origin clones u d := by
  have placements : u.placements = s.placements := by rw [hu.rest]
  have selections : u.selections = s.selections := by rw [hu.rest]
  intro q hq hd
  obtain ⟨q₀, hq₀, hdoc, nodes, rows⟩ := h q (placements ▸ hq) hd
  exact ⟨q₀, hq₀, hdoc, (hu.nodes hs .selection q.child).trans nodes,
    fun row hrow => rows row (selections ▸ hrow)⟩

section

variable (hv : Visit G t p spread p') (hs₀ : s₀.Closed) (h : Held G s₀ p.clones p.null? p.store)
  (hx : IsSpread p.store spread)
include hv hs₀ h hx

theorem Visit.stems {q' : Placement} (hq' : q' ∈ p'.store.placements.rows) :
    ∃ q ∈ p.store.placements.rows,
      (q' = q ∨ q'.document = p.store.documents.nextId ∧
        ∃ row, p.store.findDocument spread.2 .fragment = some (q.document, row)) ∧
      ∀ origin, Stems s₀ origin p.clones p.store q.child →
        Stems s₀ origin p'.clones p'.store q'.child := by
  have here := ((hv.held hs₀ h).sound.closed.placements q' hq').2.1
  obtain ⟨row', hrow'⟩ := contains_iff.mp here
  obtain ⟨q, hq, hwhere, nodes, row, hrow, hkind, hname⟩ := hv.origin_name h hx hq' hrow'
  refine ⟨q, hq, hwhere, fun origin ⟨q₀, hq₀, hdoc, nodes₀, rows⟩ => ?_⟩
  refine ⟨q₀, hq₀, hdoc, nodes.trans nodes₀, fun r hr => ?_⟩
  obtain rfl := Option.some.inj (hrow'.symm.trans hr)
  obtain ⟨row₀, hrow₀, hkind₀, hname₀⟩ := rows row hrow
  refine ⟨row₀, hrow₀, hkind.trans hkind₀, ?_⟩
  rcases hname with same | hclone
  · exact hname₀.imp same.trans fun hm => same ▸ hv.mem_clones hm
  · exact .inr hclone

theorem Derives.visit (hd : p.store.documents.contains d)
    (hder : Derives s₀ origin p.clones p.store d) :
    Derives s₀ origin p'.clones p'.store d := by
  intro q' hq' hdoc
  obtain ⟨q, hq, rfl | ⟨hnew, _⟩, stems⟩ := hv.stems hs₀ h hx hq'
  · exact stems origin (hder q' hq hdoc)
  · have := le_issued_of_contains hd
    have := p.store.documents.issued_lt_nextId
    omega

theorem Derives.cloned {target : Int} {row : DocumentRow}
    (found : p.store.findDocument spread.2 .fragment = some (target, row))
    (hder : Derives s₀ origin p.clones p.store target) :
    Derives s₀ origin p'.clones p'.store p.store.documents.nextId := by
  intro q' hq' hdoc
  obtain ⟨q, hq, rfl | ⟨_, row', hfound⟩, stems⟩ := hv.stems hs₀ h hx hq'
  · have := le_issued_of_contains (h.sound.closed.placements q' hq).2.2
    have := p.store.documents.issued_lt_nextId
    omega
  · obtain ⟨rfl, _⟩ := Prod.mk.inj (Option.some.inj (found.symm.trans hfound))
    exact stems origin (hder q hq rfl)

end

/-! ## Null in scopes -/

/-- Every spread supplies what its fragment requires and forwards no argument to it that may be
null. -/
def Guarded (s : Store) : Prop :=
  ∀ q ∈ s.placements.rows, s.Supplied q.child ∧ s.Forwards q.document q.child

/-- The task is about a document that derives from `origin`, and what its scope binds to null is an
argument of that fragment that may be null. -/
structure Spares (s₀ : Store) (origin : Int) (clones : List String) (s : Store) (t : Task) :
    Prop where
  derives : Derives s₀ origin clones s t.document
  null : ∀ n v, s.meaning t.scope n = some v → v.kind = .null → s₀.IsFragment origin ∧
    ∃ w ∈ s₀.declarations.rows, w.document = origin ∧ w.name = n ∧ w.type.isNonNull = false

theorem isSome_lastWith {x : Int} {a : String × Value} (ha : a ∈ s.passed x) :
    (lastWith s x a.1).isSome := by
  obtain ⟨e, he, htag, ⟨id, b⟩, hb, rfl⟩ := mem_passed.mp ha
  obtain ⟨hb, howner⟩ := List.mem_filter.mp hb
  obtain ⟨he, hx⟩ := List.mem_filter.mp he
  have hwith : isWith s x b.owner := by
    refine List.any_eq_true.mpr ⟨e, he, ?_⟩
    have howner : b.owner = e.1 := of_decide_eq_true howner
    simp [howner, of_decide_eq_true hx, htag]
  have hrow := mem_rows_of_get? (get?_of_mem hb)
  refine List.getLast?_isSome.mpr (List.ne_nil_of_mem (List.mem_filter.mpr ⟨hrow, ?_⟩))
  simp [hwith]

theorem mem_passed_of_lastWith {x : Int} {n : String} {a : DirectiveArgument}
    (h : lastWith s x n = some a) : a.name = n ∧ (n, s.read a.value) ∈ s.passed x := by
  obtain ⟨hm, hcond⟩ := List.mem_filter.mp (List.mem_of_getLast? h)
  obtain ⟨hwith, hname⟩ := Bool.and_eq_true .. ▸ hcond
  have hname : a.name = n := of_decide_eq_true hname
  obtain ⟨node, hnode, htag, ha⟩ := exists_node_of_isWith hm hwith
  refine ⟨hname, List.mem_flatMap.mpr ⟨node, List.mem_filter.mpr ⟨hnode, decide_eq_true htag⟩, ?_⟩⟩
  exact hname ▸ ha

theorem Spares.resolved (spares : Spares s₀ origin clones s t) {x : Int} {w : VariableRow}
    (supplies : s₀.Supplies x w) {v : Value} (hv : (w.name, v) ∈ s₀.passed x)
    (forwards : s₀.IsFragment origin → v.kind = .var → ∀ w' ∈ s₀.declarations.rows,
      w'.document = origin → w'.name = v.raw → w'.type.isNonNull) :
    (Inlining.resolved s t.scope v).kind ≠ .null := by
  have nonNull := supplies.1 _ hv rfl
  cases v with
  | node kind raw children =>
    rw [Inlining.resolved]
    split
    · next hvar =>
      cases hmeaning : s.meaning t.scope raw with
      | none => exact nonNull
      | some bound =>
        intro null
        obtain ⟨fragment, w', hw', hdoc', hname', hnull⟩ := spares.null raw bound hmeaning null
        rw [forwards fragment hvar w' hw' hdoc' hname'] at hnull
        cases hnull
    · exact nonNull

theorem Spares.traced (spares : Spares s₀ origin p.clones p.store t) (fresh : Fresh s₀ p.clones)
    (hs₀ : s₀.Closed) (h : Held G s₀ p.clones p.null? p.store) (hx : IsSpread p.store spread)
    {q : Placement} (hq : q ∈ p.store.placements.rows) (hd : q.document = t.document)
    (hchild : q.child = spread.1) {f : Int × DocumentRow}
    (found : p.store.findDocument spread.2 .fragment = some f)
    (declares : p.store.variablesOf f.1 ≠ []) :
    ∃ q₀ ∈ s₀.placements.rows, q₀.document = origin ∧ s₀.target? q₀.child = some f ∧
      p.store.passed spread.1 = s₀.passed q₀.child := by
  obtain ⟨q₀, hq₀, horigin, nodes, rows⟩ := spares.derives q hq hd
  obtain ⟨row, hrow, hk, hname⟩ := hx
  rw [hchild] at nodes rows
  obtain ⟨row₀, hrow₀, hkind₀, hname₀⟩ := rows row hrow
  obtain ⟨found₀, _⟩ := h.advances.template hs₀ found declares
  obtain ⟨hdocument, hdname, _⟩ := findDocument_eq_some found₀
  -- No clone has the name of a template.
  have same : row.name = row₀.name := hname₀.resolve_right fun hm =>
    fresh f.2 (mem_rows_of_get? hdocument) (by rw [hdname, ← hname]; exact hm)
  refine ⟨q₀, hq₀, horigin, target?_eq_some.mpr ⟨row₀, hrow₀, hkind₀ ▸ hk, ?_⟩, ?_⟩
  · rw [← same, hname]
    exact found₀
  · rw [Store.passed, Store.passed, nodes]

theorem Spares.boundValue (spares : Spares s₀ origin p.clones p.store t) (guarded : Guarded s₀)
    (fresh : Fresh s₀ p.clones) (hs₀ : s₀.Sound G) (h : Held G s₀ p.clones p.null? p.store)
    (hx : IsSpread p.store spread) {q : Placement} (hq : q ∈ p.store.placements.rows)
    (hd : q.document = t.document) (hchild : q.child = spread.1) {f : Int × DocumentRow}
    (found : p.store.findDocument spread.2 .fragment = some f)
    (declares : p.store.variablesOf f.1 ≠ []) {n : String} {v : Value}
    (hv : boundValue p.store t.scope f.1 spread.1 n = some v) (null : v.kind = .null) :
    ∃ w ∈ s₀.declarations.rows, w.document = f.1 ∧ w.name = n ∧ w.type.isNonNull = false := by
  obtain ⟨w, hlast, hvalue⟩ := Option.map_eq_some_iff.mp hv
  obtain ⟨hm, hname⟩ := List.mem_filter.mp (List.mem_of_getLast? hlast)
  obtain ⟨hmem, hdoc⟩ := mem_map_variablesOf.mp hm
  rw [h.advances.declarations] at hmem
  obtain rfl : w.name = n := of_decide_eq_true hname
  refine ⟨w, hmem, hdoc, rfl, Bool.eq_false_iff.mpr fun nonNull => ?_⟩
  obtain ⟨q₀, hq₀, rfl, target, passed⟩ :=
    spares.traced fresh hs₀.closed h hx hq hd hchild found declares
  have required : s₀.Requires q₀.child w := ⟨nonNull, f, target, hdoc⟩
  obtain ⟨supplied, forwards⟩ := guarded q₀ hq₀
  have supplies := supplied w hmem required
  -- What is left out is not null by default.
  have absent : lastWith p.store spread.1 w.name = none →
      ∃ d ∈ w.default?, (s₀.read d).kind ≠ .null := by
    intro hnone
    refine supplies.2.resolve_left fun ⟨a, ha, hname⟩ => ?_
    have hsome := isSome_lastWith (passed.symm ▸ ha)
    rw [hname, hnone] at hsome
    cases hsome
  split at hvalue
  · next a hwith =>
    obtain ⟨_, ha⟩ := mem_passed_of_lastWith hwith
    rw [passed] at ha
    exact spares.resolved supplies ha (fun fragment => forwards fragment w hmem required _ ha rfl)
      (hvalue ▸ null)
  · next value hwith hdefault =>
    obtain ⟨d, hd, nonNull⟩ := absent hwith
    obtain rfl := Option.some.inj (hdefault.symm.trans hd)
    obtain ⟨id, hget⟩ := mem_rows_iff.mp hmem
    have rooted := hs₀.rooted (o := .default id) (by rw [owns, hget]; exact hdefault) trivial
    rw [← hvalue, (h.advances.rooted _ rooted).2] at null
    exact nonNull null
  · next hwith hdefault =>
    obtain ⟨d, hd, _⟩ := absent hwith
    cases hdefault.symm.trans hd

theorem Spares.advances (h : Spares s₀ origin clones s t) (due : Due s₀ s t) {s' : Store}
    {clones' : List String} (ha : Advances s s')
    (derives : Derives s₀ origin clones' s' t.document) : Spares s₀ origin clones' s' t where
  derives := derives
  null := by
    rw [ha.meaning fun name v hv => (due.scope.rooted name v hv).1]
    exact h.null

/-! ## The run -/

/-- Documents that were there derive from themselves, and the tasks that wait bind null only to what
may be null. -/
structure Sparing (s₀ : Store) (waits : Task → Prop) (clones : List String) (s : Store) :
    Prop where
  old : ∀ d, s₀.documents.contains d = true → Derives s₀ d clones s d
  tasks : ∀ t, waits t → Due s₀ s t ∧ ∃ origin, Spares s₀ origin clones s t

variable {waits : Task → Prop}

theorem Sparing.substituted {σ : String → Option Value} {c : Int}
    (h : Sparing s₀ waits clones s) (hu : Substituted G s c σ u) (hs : s.Sound G) :
    Sparing s₀ waits clones u where
  old d hd := (h.old d hd).substituted hu hs
  tasks t ht := by
    obtain ⟨due, origin, spares⟩ := h.tasks t ht
    have ha := hu.advances hs
    exact ⟨due.advances ha, origin, spares.advances due ha (spares.derives.substituted hu hs)⟩

theorem Sparing.visit (h : Sparing s₀ (fun t => waits t ∨ t ∈ p.tasks) p.clones p.store)
    (taken : waits t) {n : Nat} {rest : List (Int × String)}
    (hw : Working G s₀ t n (spread :: rest) p) (hv : Visit G t p spread p') (hs₀ : s₀.Sound G)
    (guarded : Guarded s₀) (fresh : Fresh s₀ p.clones) :
    Sparing s₀ (fun t => waits t ∨ t ∈ p'.tasks) p'.clones p'.store := by
  obtain ⟨hx, q, hq, hd, hchild⟩ := hw.spreads spread List.mem_cons_self
  have ha := hv.advances hw.held
  have older : ∀ d, s₀.documents.contains d → p.store.documents.contains d :=
    fun d hd => hw.held.advances.documents.contains hd
  have kept : ∀ task, waits task ∨ task ∈ p.tasks →
      Due s₀ p'.store task ∧ ∃ origin, Spares s₀ origin p'.clones p'.store task := by
    intro task htask
    obtain ⟨due, origin, spares⟩ := h.tasks task htask
    exact ⟨due.advances ha, origin, spares.advances due ha
      (spares.derives.visit hv hs₀.closed hw.held hx due.here)⟩
  refine ⟨fun d hd => (h.old d hd).visit hv hs₀.closed hw.held hx (older d hd), fun task htask => ?_⟩
  rcases hv.tasks with same | ⟨new, same⟩
  · exact kept task (same ▸ htask)
  · rw [same, List.mem_append, List.mem_singleton, ← or_assoc] at htask
    rcases htask with htask | rfl
    · exact kept task htask
    · obtain ⟨target, row, ids, rows, found, declares, _, makes⟩ :=
        hv.makes hs₀.closed hw.held hw.due.scope hx same
      obtain ⟨_, origin, spares⟩ := h.tasks t (.inl taken)
      obtain ⟨found₀, _⟩ := hw.held.advances.template hs₀.closed found declares
      obtain ⟨hrow, _, hkind⟩ := findDocument_eq_some found₀
      have htarget := contains_of_get? hrow
      refine ⟨makes.due, target, ?_, ?_⟩
      · rw [makes.document]
        exact (h.old target htarget).cloned hv hs₀.closed hw.held hx found
      · rw [makes.meaning]
        exact fun n v hvalue null => ⟨⟨row, hrow, hkind⟩, spares.boundValue guarded fresh hs₀
          hw.held hx hq hd hchild found declares hvalue null⟩

/-- What `Sparing` says of the work on a task, as long as no clone takes a name that was there. -/
def SparingAt (s₀ : Store) (waits : Task → Prop) (p : Progress) : Prop :=
  Fresh s₀ p.clones → Sparing s₀ (fun t => waits t ∨ t ∈ p.tasks) p.clones p.store

theorem SparingAt.visit (h : SparingAt s₀ waits p) (taken : waits t) {n : Nat}
    {rest : List (Int × String)} (hw : Working G s₀ t n (spread :: rest) p)
    (hv : Visit G t p spread p') (hs₀ : s₀.Sound G) (guarded : Guarded s₀) :
    SparingAt s₀ waits p' := by
  intro fresh
  have fresh : Fresh s₀ p.clones := fun d hd hn => fresh d hd (hv.mem_clones hn)
  exact (h fresh).visit taken hw hv hs₀ guarded fresh

/-- The task is on the work list. -/
def Waits (w : Inlining) (t : Task) : Prop := t ∈ w.followUps ∨ t ∈ w.roots

theorem Stepped.sparingAt (hst : Stepped G s₀ w t w₁ u p) (hr : Running G s₀ w)
    (h : Fresh s₀ w.clones → Sparing s₀ (Waits w) w.clones w.store) :
    SparingAt s₀ (Waits w) ⟨u, w.clones, w.null?, []⟩ := by
  intro fresh
  have sparing := (h fresh).substituted hst.performed.opened hr.held.sound
  exact ⟨sparing.old, fun t ht => sparing.tasks t (ht.resolve_right List.not_mem_nil)⟩

theorem Stepped.sparing (hst : Stepped G s₀ w t w₁ u p) (hr : Running G s₀ w) (hs₀ : s₀.Sound G)
    (guarded : Guarded s₀) (h : Fresh s₀ w.clones → Sparing s₀ (Waits w) w.clones w.store) :
    Fresh s₀ w.step.clones → Sparing s₀ (Waits w.step) w.step.clones w.step.store := by
  have taken : Waits w t := (waiting_iff_of_next? hst.next).mpr (.inl rfl)
  have done : SparingAt s₀ (Waits w) p := hst.performed.visits.induction
    (P := fun _ q => SparingAt s₀ (Waits w) q) hs₀.closed hst.performed.start (hst.sparingAt hr h)
    fun _ _ _ _ hw hv hq => hq.visit taken hw hv hs₀ guarded
  rw [hst.step]
  intro fresh
  have sparing := done fresh
  refine ⟨sparing.old, fun t' ht' => sparing.tasks t' ?_⟩
  rw [Waits, List.mem_append, or_right_comm] at ht'
  exact ht'.imp_left fun ht' => (waiting_iff_of_next? hst.next).mpr (.inr ht')

theorem Handed.sparing (h : Handed G s) (guarded : Guarded s) (n : Nat) :
    Fresh s ((start s).run n).clones →
      Sparing s (Waits ((start s).run n)) ((start s).run n).clones ((start s).run n).store := by
  refine (h.running.run_induction h.sound.closed h.lasting
    (P := fun w => Fresh s w.clones → Sparing s (Waits w) w.clones w.store) (fun _ => ?_) ?_ n).2
  · refine ⟨fun d _ => derives_refl s [] d, fun t ht => ?_⟩
    have ht := ht.resolve_left List.not_mem_nil
    refine ⟨(h.running.roots t ht).1, t.document, derives_refl s [] t.document, ?_⟩
    obtain ⟨d, _, rfl⟩ := List.mem_map.mp ht
    exact nofun
  · intro w hr hP
    cases hnext : w.next? with
    | none => rwa [Inlining.step, hnext]
    | some e =>
      obtain ⟨u, p, hst⟩ := hr.stepped h.sound.closed h.lasting hnext
      exact hst.sparing hr h.sound guarded hP

theorem Working.keeps_of_mem_meetings {P : Progress → Prop} (hs₀ : s₀.Closed) {n : Nat}
    {e : Encounter}
    (step : ∀ spread rest p p', Working G s₀ t n (spread :: rest) p → Visit G t p spread p' →
      P p → P p')
    (l : List (Int × String)) {p : Progress} (hw : Working G s₀ t n l p) (hP : P p)
    (he : e ∈ meetings t l p) : P e.before := by
  induction l generalizing p with
  | nil => cases he
  | cons spread rest ih =>
    obtain ⟨p₁, hvisit, hv⟩ := visitSpread_ok hw.held hw.due.scope spread
    rw [meetings, hvisit] at he
    rcases List.mem_cons.mp he with rfl | he
    · exact hP
    · exact ih (hw.visit hs₀ hv) (step spread rest p p₁ hw hv hP) he

theorem Visits.mem_clones {l : List (Int × String)} (hvs : Visits G t l p p') {name : String}
    (hn : name ∈ p.clones) : name ∈ p'.clones := by
  induction hvs with
  | nil => exact hn
  | cons first _ ih => exact ih (first.mem_clones hn)

theorem Handed.mem_clones (h : Handed G s) {n : Nat} {name : String}
    (hn : name ∈ ((start s).run n).clones) : name ∈ (finished s).clones := by
  have hs := h.sound.closed
  have later : name ∈ (((start s).run n).run (fuelFor s)).clones := by
    refine ((h.running.run hs h.lasting n).run_induction hs h.lasting
      (P := fun w => name ∈ w.clones) hn (fun w hr hP => ?_) _).2
    cases hnext : w.next? with
    | none => rwa [Inlining.step, hnext]
    | some e =>
      obtain ⟨u, p, hst⟩ := hr.stepped hs h.lasting hnext
      rw [hst.step]
      exact hst.performed.visits.mem_clones hP
  rw [← run_add, Nat.add_comm, run_add] at later
  exact run_of_isDone h.isDone n ▸ later

theorem Handed.spares (h : Handed G s) (guarded : Guarded s)
    (fresh : Fresh s (finished s).clones) {n : Nat} {e : Encounter}
    (he : e ∈ encounters ((start s).run n)) :
    Fresh s e.before.clones ∧ ∃ origin, Spares s origin e.before.clones e.before.store e.task := by
  have hs := h.sound.closed
  have running := h.running.run hs h.lasting n
  obtain ⟨w₁, u, p, hst, hm⟩ := running.exists_meeting hs h.lasting he
  obtain ⟨_, post, hw, hvisits⟩ := Working.of_mem_meetings hs _ hst.performed.start hm
  obtain ⟨p', hvisits', hvs, _⟩ := Working.visits hs (e.spread :: post) (r := [])
    (by rw [List.append_nil]; exact hw)
  obtain ⟨rfl, _⟩ := Prod.mk.inj (hvisits'.symm.trans (hvisits.trans hst.performed.visited))
  have fresh : Fresh s e.before.clones := by
    intro d hd hn
    refine fresh d hd (h.mem_clones (n := n + 1) ?_)
    rw [run_succ, hst.step]
    exact hvs.mem_clones hn
  have taken : Waits ((start s).run n) e.task := (waiting_iff_of_next? hst.next).mpr (.inl rfl)
  have sparing := Working.keeps_of_mem_meetings (P := SparingAt s (Waits ((start s).run n))) hs
    (fun _ _ _ _ hw hv hq => hq.visit taken hw hv h.sound guarded) _ hst.performed.start
    (hst.sparingAt running (h.sparing guarded n)) hm
  exact ⟨fresh, ((sparing fresh).tasks e.task (.inl taken)).2⟩

end Inlining

namespace Project

open Store Inlining

variable {p : Project} {s : Store}

/-- If a compilation finds nothing wrong, the scope of a clone binds no required argument to null,
provided that fields that become spreads supply what the fragment requires, that no fragment
forwards an argument of its own that may be null to a required one, that no fragment declares an
argument twice and that no clone takes a name that was there before. -/
theorem required_arguments_bound {cancelled : Bool} {c : Compiled}
    (h : p.compile cancelled = .ok c) (clean : c.diagnostics = []) (validated : p.After .rules s)
    (fields : ∀ q ∈ (p.rewrite s).placements.rows,
      (∀ row ∈ s.selections.get? q.child, row.kind ≠ .fragment) →
        (p.rewrite s).Supplied q.child)
    (forwarded : ∀ q ∈ (p.rewrite s).placements.rows,
      (p.rewrite s).Forwards q.document q.child)
    (once : (p.rewrite s).DeclaresOnce)
    (fresh : ∀ d ∈ (p.rewrite s).documents.rows, d.name ∉ (finished (p.rewrite s)).clones)
    {n : Nat} {e : Encounter} (he : e ∈ encounters ((start (p.rewrite s)).run n))
    {after : Progress} (visited : visitSpread e.task e.before e.spread = .ok after) {task : Task}
    (made : after.tasks = e.before.tasks ++ [task]) :
    ∃ target row, e.before.store.findDocument e.spread.2 .fragment = some (target, row) ∧
      ∀ v ∈ e.before.store.declarations.rows, v.document = target → v.type.isNonNull = true →
        ∃ value, after.store.meaning task.scope v.name = some value ∧ value.kind ≠ .null := by
  obtain ⟨s₀, s', prepared, analysed, _⟩ := compile_clean h clean
  obtain rfl := validated.unique (.of_analyse prepared analysed) nofun
  obtain ⟨G, handed⟩ := handed (handover?_of_analyse prepared analysed rfl)
  have guarded : Guarded (p.rewrite s) := by
    refine fun q hq => ⟨?_, forwarded q hq⟩
    by_cases written : ∃ row, s.selections.get? q.child = some row ∧ row.kind = .fragment
    · obtain ⟨row, hrow, hk⟩ := written
      exact rewrite_supplied prepared analysed once hq hrow hk
    · exact fields q hq fun row hrow hk => written ⟨row, hrow, hk⟩
  obtain ⟨fresh, origin, spares⟩ := handed.spares guarded fresh he
  generalize p.rewrite s = r at *
  have hs := handed.sound.closed
  obtain ⟨_, _, _, _, _, hw, _⟩ :=
    (handed.running.run hs handed.lasting n).of_mem_encounters hs handed.lasting he
  obtain ⟨hx, q, hq, hd, hchild⟩ := hw.spreads e.spread List.mem_cons_self
  obtain ⟨after', hvisit, hv⟩ := visitSpread_ok hw.held hw.due.scope e.spread
  obtain rfl := Except.ok.inj (hvisit.symm.trans visited)
  obtain ⟨target, row, ids, rows, found, declares, _, makes⟩ :=
    hv.makes hs hw.held hw.due.scope hx made
  refine ⟨target, row, found, fun v hmem hdoc required => ?_⟩
  rw [makes.meaning]
  obtain ⟨id, hid⟩ := Table.mem_rows_iff.mp hmem
  have bound : (boundValue e.before.store e.task.scope target e.spread.1 v.name).isSome = true :=
    isSome_boundValue (mem_declaredNames.mpr ⟨id, v, hid, hdoc, rfl⟩)
  obtain ⟨value, hvalue⟩ := Option.isSome_iff_exists.mp bound
  refine ⟨value, hvalue, fun null => ?_⟩
  obtain ⟨w, hw', hwdoc, hwname, hnull⟩ := spares.boundValue guarded fresh handed.sound hw.held hx
    hq hd hchild found declares hvalue null
  -- The argument that may be null has the name of the required one.
  obtain ⟨found₀, _⟩ := hw.held.advances.template hs found declares
  obtain ⟨id', hid'⟩ := Table.mem_rows_iff.mp hw'
  rw [hw.held.advances.declarations] at hid
  obtain rfl := once.eq found₀ hid hdoc hid' hwdoc hwname
  obtain rfl := Option.some.inj (hid.symm.trans hid')
  rw [required] at hnull
  cases hnull

/-- The next step makes a clone whose scope binds a required argument to a value of that kind. -/
def BindsRequired (kind : ValueKind) (w : Inlining) : Prop := ∃ e ∈ encounters w,
  ∃ after ∈ (visitSpread e.task e.before e.spread).toOption, ∃ task ∈ after.tasks.getLast?,
    after.tasks = e.before.tasks ++ [task] ∧
    ∃ f ∈ e.before.store.findDocument e.spread.2 .fragment,
    ∃ v ∈ e.before.store.declarations.rows, v.document = f.1 ∧ v.type.isNonNull = true ∧
    ∃ value ∈ after.store.meaning task.scope v.name, value.kind = kind

instance (kind : ValueKind) (w : Inlining) : Decidable (BindsRequired kind w) :=
  inferInstanceAs (Decidable (∃ e ∈ encounters w, _))

/-! ## A required argument that is forwarded -/

/-- The argument of `Card` is forwarded to that of a component field. -/
def album : Project where
  schema := "type Query \x7b user: User \x7d
    type User \x7b id: ID avatar(size: Int): String \x7d"
  sources := [{
    filepath := "album.graphql"
    content := "fragment Face on User @componentField(prop: \"user\", field: \"Avatar\")
          @arguments(size: \x7b type: \"Int!\" \x7d) \x7b
        avatar(size: $size)
      \x7d
      fragment Card on User @arguments(side: \x7b type: \"Int!\" \x7d) \x7b Avatar(size: $side) \x7d
      query Q \x7b user \x7b ...Card @with(side: 3) \x7d \x7d" }]

set_option maxRecDepth 10000 in
def albumSpelling : Spelling album := ⟨_, [_], rfl, rfl⟩

/-- The hypotheses on the album, with a run of eight steps whose second one makes a clone. -/
def albumFits (s r : Store) : Bool :=
  ((start r).run 8).isDone &&
  r.documents.rows.all (fun d => d.name ∉ ((start r).run 8).clones) &&
  r.placements.rows.all (fun q => decide
    ((∀ row ∈ s.selections.get? q.child, row.kind ≠ .fragment) → r.Supplied q.child)) &&
  r.placements.rows.all (fun q => decide (r.Forwards q.document q.child)) &&
  decide r.DeclaresOnce && decide (BindsRequired .int ((start r).run 1))

set_option maxRecDepth 100000 in
theorem albumFits_analysis? :
    (albumSpelling.analysis?.any fun e => albumFits e.2 (album.rewrite e.2)) := by
  decide +kernel

/-- What is forwarded in the album is bound, and not to null. -/
theorem album_required_arguments_bound : ∃ c s, album.compile false = .ok c ∧
    c.diagnostics = [] ∧ album.After .rules s ∧ ∃ e ∈ encounters ((start (album.rewrite s)).run 1),
      ∃ after task, visitSpread e.task e.before e.spread = .ok after ∧
        after.tasks = e.before.tasks ++ [task] ∧ ∃ v ∈ e.before.store.declarations.rows,
          v.type.isNonNull = true ∧
          ∃ value, after.store.meaning task.scope v.name = some value ∧ value.kind ≠ .null := by
  obtain ⟨s₀, s, prepared, analysed, fits⟩ := albumSpelling.exists_of_any albumFits_analysis?
  obtain ⟨c, compiled, clean, -⟩ := compile_of_analyse prepared analysed
  simp only [albumFits, Bool.and_eq_true, decide_eq_true_eq, List.all_eq_true] at fits
  obtain ⟨⟨⟨⟨⟨done, fresh⟩, fields⟩, forwarded⟩, once⟩, binds⟩ := fits
  obtain ⟨e, he, after, hafter, task, _, made, f, found, v, hv, hdoc, nonNull, _⟩ := binds
  have visited : visitSpread e.task e.before e.spread = .ok after := by
    cases hvisit : visitSpread e.task e.before e.spread with
    | error _ =>
      rw [hvisit] at hafter
      cases hafter
    | ok p =>
      rw [hvisit] at hafter
      cases hafter
      rfl
  have validated : album.After .rules s := .of_analyse prepared analysed
  obtain ⟨G, handed⟩ := handed (handover?_of_analyse prepared analysed rfl)
  obtain ⟨target, row, found', bound⟩ := required_arguments_bound compiled clean validated fields
    forwarded once (by rw [handed.finished_eq done]; exact fresh) he visited made
  obtain rfl := Option.some.inj (found'.symm.trans found)
  exact ⟨c, s, compiled, clean, validated, e, he, after, task, visited, made, v, hv, nonNull,
    bound v hv hdoc nonNull⟩

/-! ## A required argument that a field leaves out -/

/-- A component field is selected without its argument. -/
def faceless : Project where
  schema := "type Query \x7b user: User \x7d
    type User \x7b id: ID avatar(size: Int): String \x7d"
  sources := [{
    filepath := "faceless.graphql"
    content := "fragment Face on User @componentField(prop: \"user\", field: \"Avatar\")
          @arguments(size: \x7b type: \"Int!\" \x7d) \x7b
        avatar(size: $size)
      \x7d
      query Q \x7b user \x7b Avatar \x7d \x7d" }]

set_option maxRecDepth 10000 in
def facelessSpelling : Spelling faceless := ⟨_, [_], rfl, rfl⟩

set_option maxRecDepth 100000 in
theorem faceless_binds : (facelessSpelling.analysis?.any fun e =>
    decide (BindsRequired .null (start (faceless.rewrite e.2)))) = true := by
  decide +kernel

/-- Nothing is reported, and the scope of the clone binds a required argument to null. -/
theorem faceless_binds_null : ∃ c s, faceless.compile false = .ok c ∧ c.diagnostics = [] ∧
    faceless.After .rules s ∧ BindsRequired .null (start (faceless.rewrite s)) := by
  obtain ⟨s₀, s, prepared, analysed, binds⟩ := facelessSpelling.exists_of_any faceless_binds
  obtain ⟨c, compiled, clean, -⟩ := compile_of_analyse prepared analysed
  exact ⟨c, s, compiled, clean, .of_analyse prepared analysed, of_decide_eq_true binds⟩

end Project

end GraphDoc
