import GraphDoc.Proofs.FragmentArgument.Binding
import GraphDoc.Proofs.Grammar.WellFormed

/-!
# Visiting spreads

`Inlining.Visit` lists what a visit of a spread can do: nothing, if the spread leads to no template,
or lead it to a clone, which may have to be made first. Everything that holds along a run is derived
from these three cases. `Inlining.Held` is what a store keeps on the way, relative to the store that
the run began with.
-/

set_option autoImplicit false

namespace GraphDoc

open Table

namespace Store

variable {s s' s'' : Store} {G : Int → Prop}

/-! ## What stays true of a store -/

/-- `s'` has more fragments than `s`, and what is rooted in `s` still reads the same. -/
structure Advances (s s' : Store) : Prop where
  documents : Table.Grows (fun d => d.kind = .fragment) s.documents s'.documents
  declarations : s'.declarations = s.declarations
  schema : s'.schema = s.schema
  rooted : ∀ v, s.Rooted v → s'.Rooted v ∧ s'.read v = s.read v
  nodes : ∀ d, s.documents.contains d = true → s'.nodes .document d = s.nodes .document d

theorem Advances.refl (s : Store) : Advances s s :=
  ⟨.refl, rfl, rfl, fun _ hv => ⟨hv, rfl⟩, fun _ _ => rfl⟩

theorem Advances.trans (h : Advances s s') (h' : Advances s' s'') : Advances s s'' where
  documents := h.documents.trans h'.documents
  declarations := h'.declarations.trans h.declarations
  schema := h'.schema.trans h.schema
  rooted := fun v hv => by
    obtain ⟨hv', hread⟩ := h.rooted v hv
    obtain ⟨hv'', hread'⟩ := h'.rooted v hv'
    exact ⟨hv'', hread'.trans hread⟩
  nodes := fun d hd => (h'.nodes d (h.documents.contains hd)).trans (h.nodes d hd)

theorem Advances.of_copying (h : Copying s s') (hs : s.Sound G) (hs' : s'.Sound G)
    (hd : Table.Grows (fun d => d.kind = .fragment) s.documents s'.documents) : Advances s s' where
  documents := hd
  declarations := h.declarations
  schema := by rw [h.rest]
  rooted := fun _ hv => ⟨hv.copying h, h.read hs hs' hv.1⟩
  nodes := fun _ hd => h.nodes_eq hs hs' (le_issued_of_contains hd)

theorem Advances.meaning (h : Advances s s') {scope : Scope}
    (hscope : ∀ name v, NameMap.get? name scope = some v → s.Rooted v) :
    s'.meaning scope = s.meaning scope := by
  funext name
  refine Option.map_congr fun v hv => ?_
  exact (h.rooted v (hscope name v hv)).2

/-- A selection with something on it, in one of the documents after the first `n`, is in no other
document. -/
def Exclusive (s : Store) (n : Nat) : Prop :=
  ∀ p ∈ s.placements.rows, (n : Int) < p.document → ∀ row,
    s.selections.get? p.child = some row → s.isOwned p.child row = true →
    ∀ q ∈ s.placements.rows, q.child = p.child → q.document = p.document

/-! ## Renaming a spread -/

theorem get?_renameSelection (s : Store) (x : Int) (name : String) (y : Int) :
    (Inlining.renameSelection s x name).selections.get? y =
      if y = x then (s.selections.get? y).map fun row => { row with name := name }
      else s.selections.get? y := get?_modify ..

theorem Sound.renameSelection (hs : s.Sound G) (x : Int) (name : String) :
    (Inlining.renameSelection s x name).Sound G :=
  hs.withSelections fun _ => contains_modify ..

theorem Advances.renameSelection (s : Store) (x : Int) (name : String) :
    Advances s (Inlining.renameSelection s x name) where
  documents := .refl
  declarations := rfl
  schema := rfl
  rooted := fun v hv => by
    refine ⟨⟨hv.1, fun o ho => hv.2 o ?_⟩, ?_⟩
    · cases o <;> exact ho
    · apply read_of_tables <;> rfl
  nodes := fun d _ => by apply nodes_of_tables <;> rfl

theorem Exclusive.renameSelection {n : Nat} (h : s.Exclusive n) (x : Int) (name : String) :
    (Inlining.renameSelection s x name).Exclusive n := by
  intro p hp hd row hrow ho q hq hc
  rw [get?_renameSelection] at hrow
  split at hrow
  · obtain ⟨row', hrow', rfl⟩ := Option.map_eq_some_iff.mp hrow
    exact h p hp hd row' hrow' ho q hq hc
  · exact h p hp hd row hrow ho q hq hc

theorem translates_renameSelection {x : Int} {row : SelectionRow}
    (hrow : s.selections.get? x = some row) (name : String) (d : Int) :
    Translates s (Inlining.renameSelection s x name) (fun y => y)
      (fun y r => if y = x ∧ r.kind = row.kind ∧ r.name = row.name then { r with name := name }
        else r)
      (fun v => v) (s.placed d) ((Inlining.renameSelection s x name).placed d) where
  placements := by
    refine ⟨fun e => (e.1, if e.1.child = x ∧ e.2.kind = row.kind ∧ e.2.name = row.name then
      { e.2 with name := name } else e.2), ?_, fun e _ => ⟨by simp, rfl, rfl⟩⟩
    rw [placed, placed, List.map_filterMap]
    refine List.filterMap_congr fun p _ => ?_
    rw [get?_renameSelection]
    by_cases hx : p.child = x
    · subst hx
      simp [hrow]
    · simp [hx, Option.map_map, Function.comp_def]
  faithful := fun _ _ _ _ _ _ he => he
  arguments := fun e _ => by
    rw [List.map_id']
    apply arguments_of_tables <;> rfl
  nodes := fun e _ => by apply nodes_of_tables <;> rfl

theorem selectionTree_renameSelection (hs : s.Sound G) {x : Int} (name : String) {d : Int}
    (hx : ∀ p ∈ s.placements.rows, p.document = d → p.child ≠ x) :
    (Inlining.renameSelection s x name).selectionTree d = s.selectionTree d := by
  have tr : Translates s (Inlining.renameSelection s x name) (fun y => y) (fun _ r => r) (fun v => v)
      (s.placed d) ((Inlining.renameSelection s x name).placed d) := by
    refine ⟨⟨fun e => e, ?_, by simp⟩, fun _ _ _ _ _ _ he => he, fun e _ => ?_, fun e _ => ?_⟩
    · rw [placed, placed, List.map_id']
      refine List.filterMap_congr fun p hp => ?_
      obtain ⟨hm, hd⟩ := List.mem_filter.mp ((mem_sortBy_iff ..).mp hp)
      rw [get?_renameSelection, if_neg (hx p hm (of_decide_eq_true hd))]
    · rw [List.map_id']
      apply arguments_of_tables <;> rfl
    · apply nodes_of_tables <;> rfl
  exact tr.selectionTree_eq hs (hs.renameSelection x name)

/-! ## Templates -/

theorem findDocument_eq_some {name : String} {kind : DocumentKind} {id : Int} {row : DocumentRow}
    (h : s.findDocument name kind = some (id, row)) :
    s.documents.get? id = some row ∧ row.name = name ∧ row.kind = kind := by
  have hq := List.find?_some h
  simp only [Bool.and_eq_true, beq_iff_eq, decide_eq_true_eq] at hq
  exact ⟨get?_of_mem (List.mem_of_find?_eq_some h), hq⟩

/-- A name that leads to no fragment with arguments. -/
def Settled (s : Store) (name : String) : Prop :=
  ∀ id row, s.findDocument name .fragment = some (id, row) → s.variablesOf id = []

/-- A name that leads to a fragment with arguments. -/
def Template (s : Store) (name : String) : Prop :=
  ∃ id row, s.findDocument name .fragment = some (id, row) ∧ s.variablesOf id ≠ []

theorem Advances.variablesOf (h : Advances s s') (d : Int) : s'.variablesOf d = s.variablesOf d := by
  rw [Store.variablesOf, Store.variablesOf, h.declarations]

theorem Advances.settled (h : Advances s s') (hs : s.Closed) {name : String} (hn : s.Settled name) :
    s'.Settled name := by
  intro id row hf
  rw [h.variablesOf]
  rcases h.documents.find?_or hf with hf | ⟨hlt, _⟩
  · exact hn id row hf
  · exact hs.variablesOf_eq_nil hlt

/-- A template was there from the start. -/
theorem Advances.template (h : Advances s s') (hs : s.Closed) {name : String} {id : Int}
    {row : DocumentRow} (hf : s'.findDocument name .fragment = some (id, row))
    (hv : s'.variablesOf id ≠ []) :
    s.findDocument name .fragment = some (id, row) ∧ s.variablesOf id ≠ [] := by
  rw [h.variablesOf] at hv
  refine ⟨(h.documents.find?_or hf).resolve_right fun hnew => ?_, hv⟩
  exact hv (hs.variablesOf_eq_nil hnew.1)

theorem Sound.not_borrows_of_declares (hs : s.Sound G) {d : Int} (h : s.variablesOf d ≠ []) :
    ¬ G d := by
  obtain ⟨v, hv⟩ := List.exists_mem_of_ne_nil _ h
  obtain ⟨hm, hd⟩ := List.mem_filter.mp hv
  have hdoc : v.2.document = d := of_decide_eq_true hd
  exact hdoc ▸ hs.declared v.2 (mem_rows_of_get? (get?_of_mem hm))

theorem Cloned.advances {source : Int} {row : DocumentRow} {name : String} {ids : CopyMap}
    {s' : Store} (h : Cloned G s source row name ids s') (hs : s.Sound G) : Advances s s' :=
  .of_copying h.copying hs h.sound (h.documents ▸ .push .refl rfl)

theorem Exclusive.cloned {n : Nat} {source : Int} {row : DocumentRow} {name : String}
    {ids : CopyMap} {s' : Store} (h : s.Exclusive n) (hs : s.Sound G)
    (hc : Cloned G s source row name ids s') : s'.Exclusive n := by
  have old : ∀ {q : Placement}, q ∈ s.placements.rows → q.child ≤ s.selections.issued :=
    fun hq => le_issued_of_contains (hs.closed.placements _ hq).2.1
  -- A selection that the clone shares carries nothing.
  have shared : ∀ q ∈ s'.placements.rows, q ∉ s.placements.rows → q.child ≤ s.selections.issued →
      ∀ row, s'.selections.get? q.child = some row → s'.isOwned q.child row = false := by
    intro q hq hnew hle row hrow
    obtain ⟨_, hlt | ⟨row', hrow', ho⟩⟩ := (hc.own q hq).resolve_left hnew
    · omega
    · cases (hc.copying.selections.get?_of_get? hrow').symm.trans hrow
      rw [hc.copying.isOwned hle, ho]
  intro p hp hd row hrow ho q hq hchild
  by_cases hpo : p ∈ s.placements.rows
  · have hle := old hpo
    by_cases hqo : q ∈ s.placements.rows
    · rw [hc.copying.isOwned hle] at ho
      rw [hc.copying.selections.get?_of_le hle] at hrow
      exact h p hpo hd row hrow ho q hqo hchild
    · have := shared q hq hqo (hchild ▸ hle) row (hchild ▸ hrow)
      rw [hchild, ho] at this
      cases this
  · obtain ⟨hpd, hpn⟩ := (hc.own p hp).resolve_left hpo
    by_cases hqo : q ∈ s.placements.rows
    · have := shared p hp hpo (hchild ▸ old hqo) row hrow
      rw [ho] at this
      cases this
    · rw [((hc.own q hq).resolve_left hqo).1, hpd]

end Store

namespace Inlining

open Store

variable {s s₀ : Store} {G : Int → Prop} {t : Task} {p p' : Progress} {spread : Int × String}

/-- What a run has made of the store that it began with. -/
structure Held (G : Int → Prop) (s₀ : Store) (clones : List String) (null? : Option Int)
    (s : Store) : Prop where
  sound : s.Sound G
  advances : Advances s₀ s
  named : ∀ d ∈ s.documents.rows, d ∈ s₀.documents.rows ∨ d.name ∈ clones
  exclusive : s.Exclusive s₀.documents.issued
  null : ∀ v, null? = some v → s.Rooted v ∧ s.read v = .node .null "null" []
  written : ∀ o v, s.owns o = some v → o.IsRoot → (s.read v).Written
  distinct : clones.Nodup
  derived : ∀ name ∈ clones, ∃ d ∈ s₀.documents.rows, ∃ arguments,
    name = CloneName.cloneName d.name arguments

/-- The texts of the arguments that a spread applies. -/
def appliedTexts (s : Store) (t : Task) (spread : Int) : NameMap String :=
  (applied s t spread).map fun e => (e.1, (s.read e.2).raw)

/-- What a visit of a spread can do. -/
inductive Visit (G : Int → Prop) (t : Task) (p : Progress) (spread : Int × String) :
    Progress → Prop where
  | settled (h : p.store.Settled spread.2) : Visit G t p spread p
  | led {target : Int} {row : DocumentRow} {name : String}
      (found : p.store.findDocument spread.2 .fragment = some (target, row))
      (declares : p.store.variablesOf target ≠ [])
      (named : name = CloneName.cloneName row.name (appliedTexts p.store t spread.1))
      (known : name ∈ p.clones) :
      Visit G t p spread { p with store := renameSelection p.store spread.1 name }
  | made {target : Int} {row : DocumentRow} {name : String}
      (found : p.store.findDocument spread.2 .fragment = some (target, row))
      (declares : p.store.variablesOf target ≠ [])
      (named : name = CloneName.cloneName row.name (appliedTexts p.store t spread.1))
      (new : name ∉ p.clones) {s₁ s₂ : Store} {ids : CopyMap} {null? : Option Int}
      {pairs : List (String × Int)}
      (cloned : Cloned G (renameSelection p.store spread.1 name) target row name ids s₁)
      (bound : Bound G s₁ p.null? (applied p.store t spread.1)
        ((p.store.variablesOf target).map (·.2)) s₂ null? pairs) :
      Visit G t p spread ⟨s₂, p.clones ++ [name], null?,
        p.tasks ++ [⟨p.store.documents.nextId, NameMap.ofPairs pairs⟩]⟩

theorem visitSpread_template {target : Int} {row : DocumentRow} (hs : p.store.Sound G)
    (ht : Scoped p.store t)
    (found : p.store.findDocument spread.2 .fragment = some (target, row))
    (declares : p.store.variablesOf target ≠ []) {name : String}
    (named : name = CloneName.cloneName row.name (appliedTexts p.store t spread.1)) :
    visitSpread t p spread =
      let s := renameSelection p.store spread.1 name
      if name ∈ p.clones then .ok { p with store := s }
      else
        let (s, clone) := s.cloneFragment target row name
        let (s, null?, pairs) := ((p.store.variablesOf target).map (·.2)).foldl
          (bind (applied p.store t spread.1)) (s, p.null?, [])
        .ok ⟨s, p.clones ++ [name], null?, p.tasks ++ [⟨clone, NameMap.ofPairs pairs⟩]⟩ := by
  have htexts : texts p.store (applied p.store t spread.1) =
      .ok (appliedTexts p.store t spread.1) :=
    texts_eq hs fun e he => (ht.applied_rooted hs he).1
  have hsome : ((p.store.variablesOf target).map (·.2)).isEmpty = false := by
    rw [List.isEmpty_map]
    exact List.isEmpty_eq_false_iff.mpr declares
  subst named
  simp only [visitSpread, found, hsome, htexts]
  rfl

theorem Bound.advances {s' : Store} {null₀? null? : Option Int} {arguments : NameMap Int}
    {declared : List VariableRow} {pairs : List (String × Int)}
    (h : Bound G s null₀? arguments declared s' null? pairs) (hs : s.Sound G) : Advances s s' :=
  .of_copying h.copying hs h.sound (by rw [h.same]; exact .refl)

/-- A visit never fails. -/
theorem visitSpread_ok (h : Held G s₀ p.clones p.null? p.store) (ht : Scoped p.store t)
    (spread : Int × String) : ∃ p', visitSpread t p spread = .ok p' ∧ Visit G t p spread p' := by
  have hs := h.sound
  cases found : p.store.findDocument spread.2 .fragment with
  | none =>
    refine ⟨p, by simp only [visitSpread, found]; rfl, .settled ?_⟩
    intro id row hf
    cases found.symm.trans hf
  | some entry =>
    obtain ⟨target, row⟩ := entry
    by_cases declares : p.store.variablesOf target = []
    · refine ⟨p, by simp only [visitSpread, found, declares]; rfl, .settled ?_⟩
      intro id row hf
      cases found.symm.trans hf
      exact declares
    · rw [visitSpread_template hs ht found declares rfl]
      simp only
      split
      · next known => exact ⟨_, rfl, .led found declares rfl known⟩
      · next new =>
        obtain ⟨hrow, _⟩ := findDocument_eq_some found
        have hs₁ := hs.renameSelection spread.1
          (CloneName.cloneName row.name (appliedTexts p.store t spread.1))
        obtain ⟨s₁, ids, hclone, cloned⟩ := hs₁.cloneFragment hrow
          (hs.not_borrows_of_declares declares)
          (CloneName.cloneName row.name (appliedTexts p.store t spread.1))
        have advanced := (Advances.renameSelection p.store spread.1 _).trans
          (cloned.advances hs₁)
        have hb := bound cloned.sound (fun v hv => by
          obtain ⟨hroot, hread⟩ := h.null v hv
          obtain ⟨hroot', hread'⟩ := advanced.rooted v hroot
          exact ⟨hroot', hread'.trans hread⟩) (applied p.store t spread.1)
          ((p.store.variablesOf target).map (·.2))
        rw [hclone]
        exact ⟨_, rfl, .made found declares rfl new cloned hb⟩

theorem Scoped.advances {s' : Store} (h : Scoped s t) (ha : Advances s s')
    (hd : s.documents.contains t.document) : Scoped s' t where
  defaults := by
    obtain ⟨row, hrow⟩ := contains_iff.mp hd
    rw [← h.defaults, ownDefaults, ownDefaults, hrow, ha.documents.get?_of_get? hrow,
      ha.variablesOf]
  rooted := fun name v hv => by
    obtain ⟨hroot, hwritten⟩ := h.rooted name v hv
    obtain ⟨hroot', hread⟩ := ha.rooted v hroot
    exact ⟨hroot', hread.symm ▸ hwritten⟩

/-! ## Consequences of the three cases -/

theorem Visit.advances (hv : Visit G t p spread p') (h : Held G s₀ p.clones p.null? p.store) :
    Advances p.store p'.store := by
  cases hv with
  | settled => exact .refl _
  | led => exact .renameSelection ..
  | made _ _ _ _ cloned bound =>
    exact (Advances.renameSelection ..).trans
      ((cloned.advances (h.sound.renameSelection ..)).trans (bound.advances cloned.sound))

/-- A new name for each new task. -/
theorem Visit.length (hv : Visit G t p spread p') :
    p'.clones.length + p.tasks.length = p.clones.length + p'.tasks.length := by
  cases hv with
  | settled => rfl
  | led => rfl
  | made =>
    simp only [List.length_append, List.length_singleton]
    omega

theorem Held.renameSelection {clones : List String} {null? : Option Int}
    (h : Held G s₀ clones null? s) (x : Int) (name : String) :
    Held G s₀ clones null? (Inlining.renameSelection s x name) := by
  have ha := Advances.renameSelection s x name
  refine { h with
    sound := h.sound.renameSelection x name, advances := h.advances.trans ha
    exclusive := h.exclusive.renameSelection x name, null := fun v hv => ?_
    written := fun o v ho hroot => ?_ }
  · obtain ⟨hroot, hread⟩ := h.null v hv
    obtain ⟨hroot', hread'⟩ := ha.rooted v hroot
    exact ⟨hroot', hread'.trans hread⟩
  · have ho : s.owns o = some v := by cases o <;> exact ho
    rw [(ha.rooted v (h.sound.rooted ho hroot)).2]
    exact h.written o v ho hroot

theorem Held.cloned {clones : List String} {null? : Option Int} (h : Held G s₀ clones null? s)
    {source : Int} {row : DocumentRow} {name : String} {ids : CopyMap} {s' : Store}
    (hc : Cloned G s source row name ids s') (hrow : row ∈ s₀.documents.rows)
    {arguments : NameMap String} (hname : name = CloneName.cloneName row.name arguments)
    (hnew : name ∉ clones) : Held G s₀ (clones ++ [name]) null? s' := by
  have ha := hc.advances h.sound
  refine ⟨hc.sound, h.advances.trans ha, fun d hd => ?_, h.exclusive.cloned h.sound hc,
    fun v hv => ?_, fun o v ho hroot => ?_, ?_, fun n hn => ?_⟩
  · rw [hc.documents, rows_push] at hd
    rcases List.mem_append.mp hd with hd | hd
    · exact (h.named d hd).imp_right (List.mem_append_left _)
    · obtain rfl := List.mem_singleton.mp hd
      exact .inr (by simp)
  · obtain ⟨hroot, hread⟩ := h.null v hv
    obtain ⟨hroot', hread'⟩ := ha.rooted v hroot
    exact ⟨hroot', hread'.trans hread⟩
  · cases o with
    | directive site id =>
      obtain ⟨id₀, v₀, h₀, hread⟩ := hc.inherits site id v ho
      rw [hread]
      exact h.written _ v₀ h₀ trivial
    | default id =>
      have ho : s.owns (.default id) = some v := by
        rw [Store.owns, ← hc.copying.declarations]
        exact ho
      rw [(ha.rooted v (h.sound.rooted ho trivial)).2]
      exact h.written _ v ho trivial
    | _ => exact hroot.elim
  · rw [List.nodup_append]
    refine ⟨h.distinct, by simp, fun a hm b hb => ?_⟩
    obtain rfl := List.mem_singleton.mp hb
    rintro rfl
    exact hnew hm
  · rcases List.mem_append.mp hn with hn | hn
    · exact h.derived n hn
    · obtain rfl := List.mem_singleton.mp hn
      exact ⟨row, hrow, arguments, hname⟩

theorem Held.bound {clones : List String} {null? null₁? : Option Int}
    (h : Held G s₀ clones null? s) {s' : Store} {arguments : NameMap Int}
    {declared : List VariableRow} {pairs : List (String × Int)}
    (hb : Bound G s null? arguments declared s' null₁? pairs) :
    Held G s₀ clones null₁? s' := by
  have ha := hb.advances h.sound
  have howns : ∀ o, s'.owns o = s.owns o := fun o => by
    rw [hb.same]
    cases o <;> rfl
  refine { h with
    sound := hb.sound, advances := h.advances.trans ha, named := ?_, exclusive := ?_
    null := hb.null, written := fun o v ho hroot => ?_ }
  · rw [hb.same]
    exact h.named
  · rw [hb.same]
    exact h.exclusive
  · rw [howns] at ho
    rw [(ha.rooted v (h.sound.rooted ho hroot)).2]
    exact h.written o v ho hroot

theorem Visit.held (hv : Visit G t p spread p') (hs₀ : s₀.Closed)
    (h : Held G s₀ p.clones p.null? p.store) : Held G s₀ p'.clones p'.null? p'.store := by
  cases hv with
  | settled => exact h
  | led => exact h.renameSelection ..
  | made found declares named new cloned bound =>
    obtain ⟨found₀, _⟩ := h.advances.template hs₀ found declares
    have hrow := mem_rows_of_get? (findDocument_eq_some found₀).1
    exact ((h.renameSelection ..).cloned cloned hrow named new).bound bound

/-- A task that is still to be done: its document is there, and only a clone has variables. -/
structure Due (s₀ s : Store) (t : Task) : Prop where
  scope : Scoped s t
  here : s.documents.contains t.document = true
  clone : t.scope ≠ [] → (s₀.documents.issued : Int) < t.document

theorem Due.advances {s' : Store} (h : Due s₀ s t) (ha : Advances s s') : Due s₀ s' t :=
  ⟨h.scope.advances ha h.here, ha.documents.contains h.here, h.clone⟩

/-- The values that a visit works with. -/
theorem Held.values (h : Held G s₀ p.clones p.null? p.store) (ht : Scoped p.store t)
    (spread target : Int) :
    (∀ name v, NameMap.get? name (applied p.store t spread) = some v →
      p.store.Rooted v ∧ (p.store.read v).Written) ∧
    ∀ d ∈ (p.store.variablesOf target).map (·.2), ∀ v, d.default? = some v →
      p.store.Rooted v ∧ (p.store.read v).Written := by
  refine ⟨fun name v hv => ?_, fun d hd v hv => ?_⟩
  · have hmem := NameMap.mem_of_get? hv
    exact ⟨ht.applied_rooted h.sound hmem, ht.applied_written h.sound h.written hmem⟩
  · obtain ⟨e, he, rfl⟩ := List.mem_map.mp hd
    have ho : p.store.owns (.default e.1) = some v := by
      rw [Store.owns, get?_of_mem (List.mem_filter.mp he).1]
      exact hv
    exact ⟨h.sound.rooted ho trivial, h.written _ v ho trivial⟩

theorem ownDefaults_eq_nil {d : Int} (h : s.variablesOf d = []) : ownDefaults s d = [] := by
  rw [ownDefaults]
  split
  · rw [h]
    rfl
  · rfl

/-- The clone that a visit makes, with the task to work on it. -/
structure Makes (G : Int → Prop) (s₀ : Store) (t : Task) (s : Store) (spread : Int × String)
    (s' : Store) (task : Task) (target : Int) (row : DocumentRow) (ids : CopyMap)
    (rows : Int → SelectionRow → SelectionRow) : Prop where
  document : task.document = s.documents.nextId
  row : s'.documents.get? task.document =
    some { row with name := CloneName.cloneName row.name (appliedTexts s t spread.1) }
  due : Due s₀ s' task
  meaning : s'.meaning task.scope = boundValue s t.scope target spread.1
  tree : s'.selectionTree task.document = (s.selectionTree target).map
    (SelectionNode.rewriteAll ids.image rows fun v => v)
  nodes : s'.nodes .document task.document =
    (s.nodes .document target).filter (·.name ≠ Framework.argumentsTag)

/-- Rows that differ from the given ones at most in the names of spreads of templates. -/
def Renaming (s₀ : Store) (rows : Int → SelectionRow → SelectionRow) : Prop :=
  ∀ x row, rows x row = row ∨
    row.kind = .fragment ∧ s₀.Template row.name ∧ ∃ name, rows x row = { row with name := name }

theorem Renaming.refl (s₀ : Store) : Renaming s₀ fun _ row => row := fun _ _ => .inl rfl

theorem Renaming.comp {rows rows' : Int → SelectionRow → SelectionRow} (h : Renaming s₀ rows)
    (h' : Renaming s₀ rows') (ids : Int → Int) :
    Renaming s₀ fun x row => rows' (ids x) (rows x row) := by
  intro x row
  rcases h x row with he | ⟨hk, ht, name, he⟩
  · simp only [he]
    exact h' (ids x) row
  · rcases h' (ids x) (rows x row) with he' | ⟨_, _, name', he'⟩
    · exact .inr ⟨hk, ht, name, he'.trans he⟩
    · exact .inr ⟨hk, ht, name', he'.trans (by rw [he])⟩

/-- The rows after a spread was led elsewhere. -/
def rename (spread : Int × String) (name : String) (x : Int) (row : SelectionRow) : SelectionRow :=
  if x = spread.1 ∧ row.kind = .fragment ∧ row.name = spread.2 then { row with name := name }
  else row

theorem renaming_rename {target : Int} {row : DocumentRow} {name : String}
    (found : s₀.findDocument spread.2 .fragment = some (target, row))
    (declares : s₀.variablesOf target ≠ []) : Renaming s₀ (rename spread name) := by
  intro x r
  rw [rename]
  split
  · next h =>
    obtain ⟨_, hk, hn⟩ := h
    exact .inr ⟨hk, hn.symm ▸ ⟨target, row, found, declares⟩, name, rfl⟩
  · exact .inl rfl

/-- The row of a spread that was not visited yet. -/
def IsSpread (s : Store) (spread : Int × String) : Prop :=
  ∃ row, s.selections.get? spread.1 = some row ∧ row.kind = .fragment ∧ row.name = spread.2

theorem IsSpread.selectionTree (hx : IsSpread s spread) (hs : s.Sound G) (name : String) (d : Int) :
    (Inlining.renameSelection s spread.1 name).selectionTree d = (s.selectionTree d).map
      (SelectionNode.rewriteAll (fun y => y) (rename spread name) fun v => v) := by
  obtain ⟨row, hrow, hk, hn⟩ := hx
  have tr := translates_renameSelection hrow name d
  rw [hk, hn] at tr
  exact tr.selectionTree hs (hs.renameSelection ..)

theorem Visit.makes {task : Task} (hv : Visit G t p spread p') (hs₀ : s₀.Closed)
    (h : Held G s₀ p.clones p.null? p.store) (ht : Scoped p.store t)
    (hx : IsSpread p.store spread) (htask : p'.tasks = p.tasks ++ [task]) :
    ∃ target row ids rows, p.store.findDocument spread.2 .fragment = some (target, row) ∧
      p.store.variablesOf target ≠ [] ∧ Renaming s₀ rows ∧
      Makes G s₀ t p.store spread p'.store task target row ids rows := by
  cases hv with
  | settled => simp at htask
  | led => simp at htask
  | @made target row name found declares named new s₁ s₂ ids null? pairs cloned bound =>
    obtain rfl : _ = task := by simpa using htask
    have hnew := p.store.documents.issued_lt_nextId
    have hs₁ := h.sound.renameSelection spread.1 name
    have advanced := (Advances.renameSelection p.store spread.1 name).trans (cloned.advances hs₁)
    have bounded := bound.advances cloned.sound
    have carried : ∀ {v}, p.store.Rooted v ∧ (p.store.read v).Written →
        s₁.Rooted v ∧ (s₁.read v).Written := by
      rintro v ⟨hroot, hwritten⟩
      obtain ⟨hroot', hread⟩ := advanced.rooted v hroot
      exact ⟨hroot', hread.symm ▸ hwritten⟩
    obtain ⟨harguments, hdefaults⟩ := h.values ht spread.1 target
    have harguments₁ := fun n v hv => carried (harguments n v hv)
    have hdefaults₁ := fun d hd v hv => carried (hdefaults d hd v hv)
    have hrow : s₁.documents.get? p.store.documents.nextId = some { row with name := name } := by
      rw [cloned.documents, ← (findDocument_eq_some found).2.2]
      exact get?_push_nextId ..
    have hhere := contains_of_get? hrow
    obtain ⟨found₀, declares₀⟩ := h.advances.template hs₀ found declares
    refine ⟨target, row, ids, fun x r => rename spread name x r, found, declares,
      renaming_rename found₀ declares₀, rfl, ?_, ⟨⟨?_, fun n v hv => ?_⟩, ?_, fun _ => ?_⟩, ?_, ?_, ?_⟩
    · exact (bounded.documents.get?_of_get? hrow).trans (by rw [named])
    · refine ownDefaults_eq_nil ?_
      rw [bounded.variablesOf, advanced.variablesOf]
      exact h.sound.closed.variablesOf_eq_nil hnew
    · exact bound.rooted cloned.sound harguments₁ hdefaults₁ hv
    · exact bounded.documents.contains hhere
    · have := h.advances.documents.issued_le
      simp only
      omega
    · funext n
      rw [bound.meaning cloned.sound harguments₁ hdefaults₁, ht.boundValue h.sound]
      refine Option.map_congr fun d hd => ?_
      obtain ⟨hmem, hn⟩ := List.mem_filter.mp (List.mem_of_getLast? hd)
      obtain rfl : d.name = n := of_decide_eq_true hn
      cases hvalue : (NameMap.get? d.name (applied p.store t spread.1)).orElse
          fun _ => d.default? with
      | none => rfl
      | some v =>
        exact (advanced.rooted v (value_induction harguments (hdefaults d hmem) hvalue).1).2
    · have same : s₂.selectionTree p.store.documents.nextId =
          s₁.selectionTree p.store.documents.nextId :=
        (bound.copying.translates cloned.sound bound.sound
          (le_issued_of_contains hhere)).selectionTree_eq cloned.sound bound.sound
      rw [same]
      refine (cloned.tree.selectionTree hs₁ cloned.sound).trans ?_
      rw [hx.selectionTree h.sound]
      cases p.store.selectionTree target with
      | error _ => rfl
      | ok tree => exact congrArg Except.ok (SelectionNode.rewriteAll_rewriteAll tree)
    · refine (bounded.nodes _ hhere).trans (cloned.nodes.trans ?_)
      congr 1
      apply nodes_of_tables <;> rfl

theorem Visit.selectionTree (hv : Visit G t p spread p')
    (h : Held G s₀ p.clones p.null? p.store) {d : Int}
    (hd : p.store.documents.contains d) :
    p'.store.selectionTree d = p.store.selectionTree d ∨ ∃ name, p.store.Template spread.2 ∧
      p'.store.selectionTree d =
        (Inlining.renameSelection p.store spread.1 name).selectionTree d := by
  cases hv with
  | settled => exact .inl rfl
  | led found declares => exact .inr ⟨_, ⟨_, _, found, declares⟩, rfl⟩
  | @made target row name found declares named new s₁ s₂ ids null? pairs cloned bound =>
    have hs₁ := h.sound.renameSelection spread.1 name
    have hle := le_issued_of_contains hd
    have hd₁ : s₁.documents.contains d := cloned.copying.documents.contains hd
    refine .inr ⟨name, ⟨_, _, found, declares⟩, ?_⟩
    exact ((bound.copying.translates cloned.sound bound.sound
      (le_issued_of_contains hd₁)).selectionTree_eq cloned.sound bound.sound).trans
      ((cloned.copying.translates hs₁ cloned.sound hle).selectionTree_eq hs₁ cloned.sound)

/-- A visit changes other trees at most in the name of the spread. -/
theorem Visit.renames (hv : Visit G t p spread p') (hs₀ : s₀.Closed)
    (h : Held G s₀ p.clones p.null? p.store) (hx : IsSpread p.store spread) {d : Int}
    (hd : p.store.documents.contains d) : ∃ rows, Renaming s₀ rows ∧
      p'.store.selectionTree d = (p.store.selectionTree d).map
        (SelectionNode.rewriteAll (fun y => y) rows fun v => v) := by
  rcases hv.selectionTree h hd with same | ⟨name, ⟨target, row, found, declares⟩, same⟩
  · refine ⟨fun _ row => row, .refl s₀, ?_⟩
    rw [same]
    cases p.store.selectionTree d with
    | error _ => rfl
    | ok tree => exact congrArg Except.ok (SelectionNode.rewriteAll_id tree).symm
  · obtain ⟨found₀, declares₀⟩ := h.advances.template hs₀ found declares
    exact ⟨_, renaming_rename found₀ declares₀, same.trans (hx.selectionTree h.sound name d)⟩

/-- A document that the spread is not in stays as it is. -/
theorem Visit.unmoved (hv : Visit G t p spread p') (h : Held G s₀ p.clones p.null? p.store)
    {d : Int} (hd : p.store.documents.contains d)
    (hx : ∀ q ∈ p.store.placements.rows, q.document = d → q.child ≠ spread.1) :
    p'.store.selectionTree d = p.store.selectionTree d := by
  rcases hv.selectionTree h hd with same | ⟨name, _, same⟩
  · exact same
  · exact same.trans (selectionTree_renameSelection h.sound name hx)

end Inlining

end GraphDoc
