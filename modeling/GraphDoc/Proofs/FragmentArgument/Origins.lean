import GraphDoc.Proofs.FragmentArgument.Running
import GraphDoc.Proofs.Store.Resemblance

/-!
# Where selections come from

A run gets new selections only by copying, so every selection that it places resembles one that was
placed before.
-/

set_option autoImplicit false

namespace GraphDoc

open Table

namespace Store

variable {s s' : Store} {G : Int → Prop} {x : Int}

/-! ## Copies -/

theorem Copying.resembles (h : Copying s s') (hs : s.Sound G) (hs' : s'.Sound G)
    (hx : s.selections.contains x) : Resembles (fun v => v) s x s' x := by
  obtain ⟨row, hrow⟩ := contains_iff.mp hx
  have hle := le_issued hrow
  refine ⟨⟨row, row.name, hrow, h.selections.get?_of_get? hrow, fun _ => rfl⟩,
    h.nodes_eq hs hs' hle, ?_⟩
  rw [h.arguments_eq hs hs' hle, List.map_id']

theorem Cloned.origin {source : Int} {row : DocumentRow} {name : String} {ids : CopyMap}
    (h : Cloned G s source row name ids s') (hs : s.Sound G) {q' : Placement}
    (hq : q' ∈ s'.placements.rows) :
    ∃ q ∈ s.placements.rows, Resembles (fun v => v) s q.child s' q'.child ∧
      s'.selections.get? q'.child = s.selections.get? q.child ∧
      (q' = q ∨ q'.document = s.documents.nextId ∧ q.document = source) := by
  by_cases hold : q' ∈ s.placements.rows
  · have here := (hs.closed.placements q' hold).2.1
    exact ⟨q', hold, h.copying.resembles hs h.sound here,
      h.copying.selections.get?_of_le (le_issued_of_contains here), .inl rfl⟩
  · obtain ⟨hd, _⟩ := (h.own q' hq).resolve_left hold
    obtain ⟨row', hrow'⟩ := contains_iff.mp (h.sound.closed.placements q' hq).2.1
    have hplaced : (q', row') ∈ s'.placed s.documents.nextId := mem_placed_iff.mpr ⟨hq, hd, hrow'⟩
    obtain ⟨g, hg, hmap⟩ := h.tree.placements
    rw [hg] at hplaced
    obtain ⟨e, he, hge⟩ := List.mem_map.mp hplaced
    obtain ⟨_, hchild, hrow⟩ := hmap e he
    obtain ⟨hq₀, hd₀, hrow₀⟩ := mem_placed he
    rw [hge] at hchild hrow
    have hsame : row' = e.2 := hrow
    refine ⟨e.1, hq₀, ⟨⟨e.2, e.2.name, hrow₀, hsame ▸ hrow', fun _ => rfl⟩, ?_, ?_⟩,
      by rw [hrow', hsame, hrow₀], .inr ⟨hd, hd₀⟩⟩
    · exact (congrArg (s'.nodes .selection) hchild).trans (h.tree.nodes e he)
    · exact (congrArg s'.arguments hchild).trans (h.tree.arguments e he)

/-! ## Substitution -/

section

variable {d : Int} {σ : String → Option Value}

theorem Substituted.row (h : Substituted G s d σ s') (hx : s.selections.contains x) :
    ∃ row name, s.selections.get? x = some row ∧
      s'.selections.get? x = some { row with name := name } ∧
      (row.kind ≠ .fragment → name = row.name) := by
  obtain ⟨row, hrow⟩ := contains_iff.mp hx
  have hselections : s'.selections = s.selections := by rw [h.rest]
  exact ⟨row, row.name, hrow, hselections ▸ hrow, fun _ => rfl⟩

/-- What stands in the document is substituted. -/
theorem Substituted.resembles_inside (h : Substituted G s d σ s') (hs : s.Sound G)
    {q : Placement} (hq : q ∈ s.placements.rows) (hd : q.document = d) :
    Resembles (Value.substitute σ) s q.child s' q.child :=
  ⟨h.row (hs.closed.placements q hq).2.1, h.nodes hs .selection _, h.inner q hq hd⟩

/-- What does not stand in the document stays as it is. -/
theorem Substituted.resembles_outside (h : Substituted G s d σ s') (hs : s.Sound G)
    (hx : s.selections.contains x)
    (hd : ∀ q ∈ s.placements.rows, q.document = d → q.child ≠ x) :
    Resembles (fun v => v) s x s' x :=
  ⟨h.row hx, h.nodes hs .selection _, by rw [h.outer x hd, List.map_id']⟩

end

theorem Substituted.draws {d : Int} {σ : String → Option Value} (h : Substituted G s d σ s')
    (hs : s.Sound G) : Draws s s' := by
  intro q hq
  have hq : q ∈ s.placements.rows := by
    rw [h.rest] at hq
    exact hq
  by_cases hin : ∃ p ∈ s.placements.rows, p.document = d ∧ p.child = q.child
  · obtain ⟨p, hp, hd, hc⟩ := hin
    exact ⟨q, hq, _, hc ▸ h.resembles_inside hs hp hd⟩
  · exact ⟨q, hq, _, h.resembles_outside hs (hs.closed.placements q hq).2.1
      fun p hp hd hc => hin ⟨p, hp, hd, hc⟩⟩

end Store

namespace Inlining

open Store

variable {s s₀ : Store} {G : Int → Prop} {t : Task} {p p' : Progress} {spread : Int × String}

theorem IsSpread.resembles (hx : IsSpread s spread) (name : String) {x : Int}
    (hc : s.selections.contains x) :
    Resembles (fun v => v) s x (renameSelection s spread.1 name) x := by
  obtain ⟨row, hrow⟩ := contains_iff.mp hc
  refine ⟨⟨row, if x = spread.1 then name else row.name, hrow, ?_, fun hk => ?_⟩,
    by apply nodes_of_tables <;> rfl, ?_⟩
  · rw [get?_renameSelection, hrow]
    split <;> rfl
  · refine if_neg fun he => hk ?_
    obtain ⟨row', hrow', hk', _⟩ := hx
    cases hrow.symm.trans (he ▸ hrow')
    exact hk'
  · rw [List.map_id']
    apply arguments_of_tables <;> rfl

/-- The placements after a visit: the old ones, and those of a clone, which come from the
template. -/
theorem Visit.origin (hv : Visit G t p spread p') (h : Held G s₀ p.clones p.null? p.store)
    (hx : IsSpread p.store spread) {q' : Placement} (hq : q' ∈ p'.store.placements.rows) :
    ∃ q ∈ p.store.placements.rows, Resembles (fun v => v) p.store q.child p'.store q'.child ∧
      p'.store.selections.get? q'.child = p'.store.selections.get? q.child ∧
      (q' = q ∨ q'.document = p.store.documents.nextId ∧
        ∃ row, p.store.findDocument spread.2 .fragment = some (q.document, row)) := by
  have here : ∀ q ∈ p.store.placements.rows, p.store.selections.contains q.child :=
    fun q hq => (h.sound.closed.placements q hq).2.1
  cases hv with
  | settled => exact ⟨q', hq, .refl (here q' hq), rfl, .inl rfl⟩
  | led => exact ⟨q', hq, hx.resembles _ (here q' hq), rfl, .inl rfl⟩
  | @made target row name found declares named new s₁ s₂ ids null? pairs cloned bound =>
    have hs₁ := h.sound.renameSelection spread.1 name
    have hq₁ : q' ∈ s₁.placements.rows := by
      rw [bound.same] at hq
      exact hq
    obtain ⟨q, hq₀, hr, hrow, hwhere⟩ := cloned.origin hs₁ hq₁
    have hb := bound.copying.resembles cloned.sound bound.sound
      (cloned.sound.closed.placements q' hq₁).2.1
    refine ⟨q, hq₀, ((hx.resembles name (here q hq₀)).trans hr).trans hb, ?_, ?_⟩
    · have hle := le_issued_of_contains (here q hq₀)
      have hle : q.child ≤ (renameSelection p.store spread.1 name).selections.issued := hle
      have hselections : s₂.selections = s₁.selections := by rw [bound.same]
      rw [hselections, hrow, cloned.copying.selections.get?_of_le hle]
    · rcases hwhere with same | ⟨hd, rfl⟩
      · exact .inl same
      · exact .inr ⟨hd, row, found⟩

theorem Visit.draws (hv : Visit G t p spread p') (h : Held G s₀ p.clones p.null? p.store)
    (hx : IsSpread p.store spread) : Draws p.store p'.store := by
  intro q' hq'
  obtain ⟨q, hq, hr, _⟩ := hv.origin h hx hq'
  exact ⟨q, hq, _, hr⟩

section

variable (hs₀ : s₀.Closed)
include hs₀

theorem Performed.draws {clones : List String} {null? : Option Int} {u : Store}
    (h : Performed G s₀ t s clones null? u p) (hs : s.Sound G) : Draws s p.store := by
  refine h.visits.induction (P := fun _ q => Draws s q.store) hs₀ h.start (h.opened.draws hs) ?_
  intro spread rest q q' hw hv hq
  exact hq.trans (hv.draws hw.held (hw.spreads spread List.mem_cons_self).1)

theorem Running.draws (hG : ∀ d : Int, (s₀.documents.issued : Int) < d → ¬ G d) {w : Inlining}
    (h : Running G s₀ w) (n : Nat) (hw : Draws s₀ w.store) : Draws s₀ (w.run n).store := by
  refine (h.run_induction hs₀ hG (P := fun w => Draws s₀ w.store) hw (fun w hr hP => ?_) n).2
  cases hnext : w.next? with
  | none => rwa [Inlining.step, hnext]
  | some e =>
    obtain ⟨u, p, hst⟩ := hr.stepped hs₀ hG hnext
    rw [hst.step]
    exact hP.trans (hst.performed.draws hs₀ hr.held.sound)

end

theorem Handed.draws (h : Handed G s₀) : Draws s₀ (finished s₀).store :=
  h.running.draws h.sound.closed h.lasting (fuelFor s₀) (.refl h.sound.closed)

/-- The directive of an applied argument. -/
theorem exists_node_of_isWith {x : Int} {a : DirectiveArgument}
    (ha : a ∈ (s.directives .selection).arguments.rows) (hw : isWith s x a.owner) :
    ∃ node ∈ s.nodes .selection x, node.name = Framework.withTag ∧
      (a.name, s.read a.value) ∈ node.arguments := by
  obtain ⟨⟨id, u⟩, hu, hw⟩ := List.any_eq_true.mp hw
  simp only [Bool.and_eq_true, decide_eq_true_eq, beq_iff_eq] at hw
  obtain ⟨⟨rfl, rfl⟩, hname⟩ := hw
  obtain ⟨id, hid⟩ := mem_rows_iff.mp ha
  refine ⟨s.nodeOf .selection (a.owner, u), List.mem_map_of_mem (List.mem_filter.mpr ⟨hu, ?_⟩),
    hname, ?_⟩
  · exact decide_eq_true rfl
  · exact List.mem_map.mpr ⟨(id, a), List.mem_filter.mpr ⟨mem_of_get? hid,
      decide_eq_true rfl⟩, rfl⟩

end Inlining

end GraphDoc
