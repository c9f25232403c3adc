import GraphDoc.Proofs.Grammar.WellFormed

/-!
# Ready stores

Until documents are cloned, all values stand as they were written: a ready store is sound, every
value that is not the child of another one is the tree of a literal, and a selection is placed in
one document, not counting those that borrow it. A list is where its field is placed.
-/

set_option autoImplicit false

namespace GraphDoc

open Table

namespace Store

structure Ready (G : Int → Prop) (s : Store) : Prop extends s.Sound G where
  written : ∀ o v, ¬ o.IsChild → s.owns o = some v → (s.read v).Written
  homed : ∀ p ∈ s.placements.rows, ∀ q ∈ s.placements.rows, p.child = q.child →
    ¬ G p.document → ¬ G q.document → p.document = q.document
  listed : ∀ l ∈ s.lists.rows, ∃ p ∈ s.placements.rows,
    p.child = l.listField ∧ p.document = l.document

/-- The tables with a structure of their own stay. -/
structure SameTrees (s s' : Store) : Prop where
  values : s'.values = s.values
  links : s'.valueLinks = s.valueLinks
  placements : s'.placements = s.placements
  lists : s'.lists = s.lists

theorem SameTrees.setDirectives (s : Store) (site : Site) (t : DirectiveTables) :
    SameTrees s (s.setDirectives site t) := by
  cases site <;> exact ⟨rfl, rfl, rfl, rfl⟩

variable {s s' : Store} {G : Int → Prop}

/-- Other tables than those of the values may change, as long as new owners refer to what is
written. -/
theorem Ready.of_tables (h : s.Ready G) (hs : s'.Sound G) (ht : SameTrees s s')
    (ho : ∀ o v, ¬ o.IsChild → s'.owns o = some v → s.owns o = some v ∨ (s.read v).Written) :
    s'.Ready G := by
  refine { hs with written := fun o v hc hov => ?_, homed := ht.placements.symm ▸ h.homed,
                   listed := ht.placements.symm ▸ ht.lists.symm ▸ h.listed }
  rw [read_of_tables ht.values ht.links]
  rcases ho o v hc hov with hov | hw
  · exact h.written o v hc hov
  · exact hw

theorem Ready.addDocument (h : s.Ready G) {row : DocumentRow}
    (hs : s.sources.contains row.source) : (s.addDocument row).1.Ready G :=
  h.of_tables (h.toSound.addDocument hs) ⟨rfl, rfl, rfl, rfl⟩ fun o _ _ ho => .inl (by cases o <;> exact ho)

theorem Ready.addSelection (h : s.Ready G) (row : SelectionRow) : (s.addSelection row).1.Ready G :=
  h.of_tables (h.toSound.addSelection row) ⟨rfl, rfl, rfl, rfl⟩ fun o _ _ ho => .inl (by cases o <;> exact ho)

theorem Ready.withSelections (h : s.Ready G) {selections : Table SelectionRow}
    (hc : ∀ id, selections.contains id = s.selections.contains id) :
    Ready G { s with selections := selections } :=
  h.of_tables (h.toSound.withSelections hc) ⟨rfl, rfl, rfl, rfl⟩ fun o _ _ ho => .inl (by cases o <;> exact ho)

theorem Ready.addPlacement (h : s.Ready G) {row : Placement}
    (hp : ∀ x, row.parent? = some x → s.selections.contains x)
    (hc : s.selections.contains row.child)
    (hd : s.documents.contains row.document)
    (hh : ¬ G row.document → s.HeldIn row.child row.document ∧
      ∀ p ∈ s.placements.rows, p.child = row.child → ¬ G p.document → p.document = row.document)
    (shallow : ∀ n x, Descent (s.placements.push row) n x → n < Failure.depthLimit) :
    (s.addPlacement row).1.Ready G := by
  refine { h.toSound.addPlacement hp hc hd (fun hg => (hh hg).1) shallow with
           written := fun o v hchild ho => ?_, homed := ?_, listed := fun l hl => ?_ }
  · have same : (s.addPlacement row).1.read v = s.read v := by
      apply read_of_tables <;> rfl
    rw [same]
    exact h.written o v hchild (by cases o <;> exact ho)
  · have new := fun hg => (hh hg).2
    refine forall_rows_push.mpr ⟨fun p hp => ?_, ?_⟩
    · refine forall_rows_push.mpr ⟨h.homed p hp, fun he hg hg' => new hg' p hp he hg⟩
    · refine forall_rows_push.mpr ⟨fun q hq he hg hg' => ?_, fun _ _ _ => rfl⟩
      exact (new hg q hq he.symm hg').symm
  · obtain ⟨p, hp, he⟩ := h.listed l hl
    exact ⟨p, (rows_push s.placements row).symm ▸ List.mem_append_left _ hp, he⟩

theorem Ready.addDirective (h : s.Ready G) {site : Site} {row : DirectiveUse}
    (ho : s.isOwner site row.owner) : (s.addDirective site row).1.Ready G :=
  h.of_tables (h.toSound.addDirective ho) (.setDirectives ..) fun _ _ _ ho => .inl ((owns_addDirective ..).symm.trans ho)

theorem Ready.addDirectiveArgument (h : s.Ready G) {site : Site} {row : DirectiveArgument}
    {u : DirectiveUse} (hu : (s.directives site).uses.get? row.owner = some u)
    (hv : s.values.contains row.value) (free : s.Unowned row.value)
    (hh : s.Houses G site u.owner row.value) (hw : (s.read row.value).Written) :
    (s.addDirectiveArgument site row).1.Ready G := by
  refine h.of_tables (h.toSound.addDirectiveArgument hu hv free hh) (.setDirectives ..)
    fun o v _ ho => ?_
  rw [owns_addDirectiveArgument] at ho
  split at ho
  · cases ho
    exact .inr hw
  · exact .inl ho

theorem Ready.addFieldArgument (h : s.Ready G) {row : FieldArgument}
    (hx : s.selections.contains row.selection) (hv : s.values.contains row.value)
    (free : s.Unowned row.value) (hh : s.Houses G .selection row.selection row.value)
    (hw : (s.read row.value).Written) : (s.addFieldArgument row).1.Ready G := by
  refine h.of_tables (h.toSound.addFieldArgument hx hv free hh) ⟨rfl, rfl, rfl, rfl⟩ fun o v _ ho => ?_
  rw [owns_addFieldArgument] at ho
  split at ho
  · cases ho
    exact .inr hw
  · exact .inl ho

theorem Ready.addVariable (h : s.Ready G) {row : VariableRow}
    (hd : s.documents.contains row.document) (hG : ¬ G row.document)
    (hv : ∀ d, row.default? = some d → s.values.contains d ∧ s.Unowned d ∧
      (s.read d).Written) : (s.addVariable row).1.Ready G := by
  refine h.of_tables (h.toSound.addVariable hd hG fun d hd => ⟨(hv d hd).1, (hv d hd).2.1⟩)
    ⟨rfl, rfl, rfl, rfl⟩ fun o v _ ho => ?_
  rw [owns_addVariable] at ho
  split at ho
  · exact .inr (hv v ho).2.2
  · exact .inl ho

theorem Ready.eraseArgument (h : s.Ready G) (id : Int) :
    Ready G { s with fieldArguments := s.fieldArguments.erase id } := by
  refine h.of_tables (h.toSound.eraseArgument id) ⟨rfl, rfl, rfl, rfl⟩ fun o v _ ho => .inl ?_
  exact owns_of_eraseArgument ho

theorem Ready.modifyDeclaration (h : s.Ready G) {id : Int} {f : VariableRow → VariableRow}
    (hdoc : ∀ v, (f v).document = v.document)
    (hdef : ∀ v, s.declarations.get? id = some v → (f v).default? = v.default? ∨
      ∃ d, (f v).default? = some d ∧ s.values.contains d ∧ s.Unowned d ∧
        (s.read d).Written) :
    Ready G { s with declarations := s.declarations.modify id f } := by
  refine h.of_tables (h.toSound.modifyDeclaration hdoc fun v hv => ?_) ⟨rfl, rfl, rfl, rfl⟩ fun o w _ ho => ?_
  · exact (hdef v hv).imp_right fun ⟨d, he, hc, hfree, _⟩ => ⟨d, he, hc, hfree⟩
  · cases o with
    | default n =>
      obtain ⟨v, hv, hd⟩ := Option.bind_eq_some_iff.mp ho
      rw [get?_modify] at hv
      split at hv
      · next hn =>
        subst hn
        obtain ⟨v₀, h₀, rfl⟩ := Option.map_eq_some_iff.mp hv
        rcases hdef v₀ h₀ with he | ⟨d, he, _, _, hw⟩
        · exact .inl (Option.bind_eq_some_iff.mpr ⟨v₀, h₀, he.symm.trans hd⟩)
        · cases he.symm.trans hd
          exact .inr hw
      · exact .inl (Option.bind_eq_some_iff.mpr ⟨v, hv, hd⟩)
    | _ => exact .inl ho

/-- A new value leaves the old ones as they are written. -/
theorem Added.ready {document? : Option Int} {id : Int} {v : Value}
    (h : Added G s s' document? id v) (hs : s.Ready G) : s'.Ready G := by
  have hp : s'.placements = s.placements := by rw [h.adds.rest]
  have hl : s'.lists = s.lists := by rw [h.adds.rest]
  refine { h.sound with written := fun o w hc ho => ?_, homed := hp ▸ hs.homed,
                        listed := hp ▸ hl ▸ hs.listed }
  have hold : s.owns o = some w := (h.adds.owns ho).resolve_right fun ⟨hchild, _⟩ => hc hchild
  rw [h.read_old hs.toSound (hs.closed.contains_of_owns hold)]
  exact hs.written o w hc hold

theorem Ready.addValue (h : s.Ready G) {d : Int} (hd : s.documents.contains d)
    (p : Position) (expected? : Option TypeRef) {v : Value} (hv : v.Written) :
    Added G s (s.addValue (some d) p expected? v).1 (some d) (s.addValue (some d) p expected? v).2
      v :=
  addValue_added h.toSound (fun e he => by cases he; exact hd) p expected? v hv.shaped

end Store

end GraphDoc
