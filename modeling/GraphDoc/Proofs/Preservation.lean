import GraphDoc.Proofs.Rewriting

/-!
# What the stages keep of the documents

From loading to the end of validation the documents stay as they are. List operations add fragments
that take selections from other documents and have key fields of their own; component fields become
spreads that mention the same values.
-/

set_option autoImplicit false

namespace GraphDoc

namespace Store

variable {s s' s'' : Store} {G : Int → Prop}

/-! ## Lists and rules -/

/-- Only the lists differ. -/
def Relists (s t : Store) : Prop := t = { s with lists := t.lists }

theorem Relists.refl (s : Store) : Relists s s := rfl

theorem Relists.trans (h : Relists s s') (h' : Relists s' s'') : Relists s s'' := by
  unfold Relists at h h' ⊢
  rw [h', h]

theorem Relists.symm (h : Relists s s') : Relists s' s := by
  unfold Relists at h ⊢
  rw [h]

theorem Relists.schema (h : Relists s s') : s'.schema = s.schema := by
  rw [show s' = _ from h]

theorem Relists.agrees (h : Relists s s') (hs : s.Closed) : Agrees s s' := by
  unfold Relists at h
  refine .of_reads hs (fun _ => by rw [h]) (by rw [h]) (fun _ => by rw [h])
    (fun x row hrow => ⟨row.name, by rw [h]; exact hrow, fun _ => rfl⟩)
    (by rw [h]) (by rw [h]; rfl) (fun v _ => ?_) fun id => by rw [h]
  apply read_of_tables <;> rw [h]

theorem discoverLists_relists {config : Config} {found : Diagnostics}
    (h : s.discoverLists config = .ok (s', found)) : Relists s s' := by
  obtain ⟨outcomes, _, h⟩ := bind_eq_ok.mp h
  cases h
  rfl

theorem checkPaging_relists {outcome outcome' : Store × Diagnostics} {entry : Int × ListRow}
    (h : Relists s outcome.1) (hc : Rule.checkPaging outcome entry = .ok outcome') :
    Relists s outcome'.1 :=
  checkPaging_keeps h (fun _ => h.trans rfl) hc

/-- Rules write to lists only. -/
theorem runAll_relists {rules : List Rule} (hrules : ∀ r ∈ rules, r ∈ Rule.sweeps ++ Rule.rules)
    {config : Config} {found : Diagnostics}
    (h : Rule.runAll rules config s = .ok (s', found)) : Relists s s' :=
  Rule.runAll_induction (fun r hr => Rule.keeps_of_mem
    (fun _ _ _ => checkPaging_relists) r (hrules r hr)) (Relists.refl s) h

/-! ## List operations -/

/-- A placement in a document beyond `n`, of a selection that is placed in `s` or is new, at the root
or below a selection that something is below in `s`. -/
structure Borrowed (n : Nat) (s : Store) (q : Placement) : Prop where
  document : (n : Int) < q.document
  child : (s.selections.issued : Int) < q.child ∨ ∃ q₀ ∈ s.placements.rows, q₀.child = q.child
  parent : ∀ x, q.parent? = some x → ∃ q₀ ∈ s.placements.rows, q₀.parent? = some x

/-- `t` has more documents, numbered beyond `n`, with selections that are placed in `s` or new.
`Field` holds of the rows of new selections. -/
structure Generated (n : Nat) (Field : SelectionRow → Prop) (s t : Store) : Prop where
  rest : t = { s with
    documents := t.documents, selections := t.selections, placements := t.placements
    schema := t.schema }
  fields : t.schema.fields = s.schema.fields
  documents : Table.Grows (fun _ => True) s.documents t.documents
  selections : Table.Grows Field s.selections t.selections
  borrowed : Table.Grows (Borrowed n s) s.placements t.placements

variable {n : Nat} {Field : SelectionRow → Prop}

theorem Generated.older (h : Generated n Field s s') : ∀ q ∈ s.placements.rows,
    q ∈ s'.placements.rows := fun _ => h.borrowed.mem_rows

theorem Generated.placements (h : Generated n Field s s') : ∀ q ∈ s'.placements.rows,
    q ∈ s.placements.rows ∨ (n : Int) < q.document ∧
      ((s.selections.issued : Int) < q.child ∨ ∃ q₀ ∈ s.placements.rows, q₀.child = q.child) :=
  fun _ hq => (h.borrowed.rows_or hq).imp_right fun h => ⟨h.document, h.child⟩

theorem Generated.refl (n : Nat) (Field : SelectionRow → Prop) (s : Store) :
    Generated n Field s s :=
  ⟨rfl, rfl, .refl, .refl, .refl⟩

theorem Generated.trans (h : Generated n Field s s') (h' : Generated n Field s' s'') :
    Generated n Field s s'' where
  rest := by rw [h'.rest, h.rest]
  fields := h'.fields.trans h.fields
  documents := h.documents.trans h'.documents
  selections := h.selections.trans h'.selections
  borrowed := h.borrowed.trans <| h'.borrowed.mono fun q hq => by
    refine ⟨hq.document, ?_, fun x hx => ?_⟩
    · rcases hq.child with hnew | ⟨q₀, hq₀, hc⟩
      · have := h.selections.issued_le
        exact .inl (by omega)
      · rcases h.borrowed.rows_or hq₀ with hq₀ | hq₀
        · exact .inr ⟨q₀, hq₀, hc⟩
        · exact hc ▸ hq₀.child
    · obtain ⟨q₀, hq₀, hp⟩ := hq.parent x hx
      exact (h.borrowed.rows_or hq₀).elim (fun hq₀ => ⟨q₀, hq₀, hp⟩) fun hq₀ => hq₀.parent x hp

theorem Generated.identifyingFields (h : Generated n Field s s') (typeName : String) :
    s'.identifyingFields typeName = s.identifyingFields typeName := by
  rw [h.rest]
  rfl

theorem copyBelow_generated (document parent : Int) {target : Int} (hn : (n : Int) < target) :
    Generated n Field s (s.copyBelow document parent target) := by
  refine ⟨rfl, rfl, .refl, .refl, .foldl_push _ (fun q hq => ?_) .refl⟩
  obtain ⟨rfl, e, he, hchild, hparent⟩ := mem_copiesBelow (by simp) hq
  exact ⟨hn, .inr ⟨e.1, (mem_placed he).1, hchild⟩,
    fun x hx => ⟨e.1, (mem_placed he).1, hparent x hx⟩⟩

/-- The row of a key field. -/
def fieldOf (typeName field : String) : SelectionRow :=
  ⟨field, none, .field, some (Schema.idOf typeName field)⟩

theorem appendFields_generated {document : Int} (typeName : String) (p : Position)
    (fields : List String) (hn : (n : Int) < document) (hf : ∀ f ∈ fields, Field (fieldOf typeName f))
    (index : Int) (s : Store) :
    Generated n Field s (appendFields document typeName p index s fields) := by
  induction fields generalizing s index with
  | nil => exact .refl n Field s
  | cons field rest ih =>
    obtain ⟨hfield, hrest⟩ := List.forall_mem_cons.mp hf
    have added : Generated n Field s ((s.addSelection (fieldOf typeName field)).1.addPlacement
        ⟨none, s.selections.nextId, document, index, p⟩).1 :=
      ⟨rfl, rfl, .refl, .push .refl hfield,
        .push .refl ⟨hn, .inl s.selections.issued_lt_nextId, nofun⟩⟩
    exact added.trans (ih hrest (index + 1) _)

section

variable {l : ListRow} {p : Position}

theorem addListFragment_generated (ending : String) :
    Generated n Field s (s.addListFragment l p ending).1 :=
  ⟨rfl, rfl, .push .refl trivial, .refl, .refl⟩

/-- `Field` holds of the key fields of a list. -/
def KeyFields (Field : SelectionRow → Prop) (s : Store) (l : ListRow) : Prop :=
  ∀ f ∈ s.identifyingFields l.nodeType, Field (fieldOf l.nodeType f)

theorem addRecordFragment_generated (hn : n ≤ s.documents.issued) (hk : KeyFields Field s l)
    (ending : String) : Generated n Field s (addRecordFragment l p s ending) := by
  have hid : (n : Int) < s.documents.nextId := by
    have := s.documents.issued_lt_nextId
    omega
  have added : Generated n Field s (s.addListFragment l p ending).1 :=
    addListFragment_generated ending
  have copied := added.trans (copyBelow_generated l.document l.node hid)
  refine copied.trans (appendFields_generated _ _ _ hid (fun f hf => ?_) _ _)
  exact hk f (copied.identifyingFields l.nodeType ▸ (List.mem_filter.mp hf).1)

theorem addRemoveFragment_generated (hn : n ≤ s.documents.issued) (hk : KeyFields Field s l) :
    Generated n Field s (addRemoveFragment l p s) := by
  have hid : (n : Int) < s.documents.nextId := by
    have := s.documents.issued_lt_nextId
    omega
  have added : Generated n Field s (s.addListFragment l p Framework.removeEnding).1 :=
    addListFragment_generated _
  refine added.trans (appendFields_generated _ _ _ hid (fun f hf => ?_) _ _)
  exact hk f (added.identifyingFields l.nodeType ▸ hf)

end

theorem Generated.keyFields (h : Generated n Field s s') {l : ListRow} (hk : KeyFields Field s l) :
    KeyFields Field s' l := fun f hf => hk f (h.identifyingFields l.nodeType ▸ hf)

theorem addDeleteDirective_generated (s : Store) (typeName : String) :
    Generated n Field s (s.addDeleteDirective typeName) :=
  ⟨rfl, rfl, .refl, .refl, .refl⟩

theorem addListOperations_generated (hn : n ≤ s.documents.issued) {l : ListRow}
    (hk : KeyFields Field s l) : Generated n Field s (s.addListOperations l) := by
  have records : Generated n Field s ([Framework.insertEnding, Framework.toggleEnding].foldl
      (addRecordFragment l (s.listPosition l)) s) :=
    List.foldlRecOn (motive := fun t => Generated n Field s t) _ _ (.refl n Field s)
      fun t ht ending _ => ht.trans (addRecordFragment_generated
        (Nat.le_trans hn ht.documents.issued_le) (ht.keyFields hk) ending)
  have removes := records.trans (addRemoveFragment_generated (p := s.listPosition l)
    (Nat.le_trans hn records.documents.issued_le) (records.keyFields hk))
  exact removes.trans (addDeleteDirective_generated _ l.nodeType)

theorem generateListOperations_generated
    (hk : ∀ l ∈ s.lists.rows, l.name.isEmpty = false → KeyFields Field s l) :
    Generated s.documents.issued Field s s.generateListOperations.1 := by
  refine List.foldlRecOn (motive := fun t => Generated s.documents.issued Field s t) _ _
    (.refl _ Field s) fun t ht l hl => ?_
  obtain ⟨hm, hname⟩ := List.mem_filter.mp hl
  exact ht.trans (addListOperations_generated ht.documents.issued_le
    (ht.keyFields (hk l hm (by simpa using hname))))

/-! ## Spreads of component fields -/

/-- A value stands on a selection, as an argument or as that of a directive. -/
def Mentions (s : Store) (x v : Int) : Prop :=
  (∃ a ∈ s.fieldArguments.rows, a.selection = x ∧ a.value = v) ∨
  ∃ a ∈ (s.directives .selection).arguments.rows, ∃ u,
    (s.directives .selection).uses.get? a.owner = some u ∧ u.owner = x ∧ a.value = v

/-- `t` has some selections made spreads, which mention what was mentioned before. -/
structure Spreads (s t : Store) : Prop where
  rest : t = { s with
    selections := t.selections, selectionDirectives := t.selectionDirectives
    fieldArguments := t.fieldArguments }
  rows : ∀ x row, t.selections.get? x = some row →
    s.selections.get? x = some row ∨ row.kind = .fragment
  mentions : ∀ x v, t.Mentions x v → s.Mentions x v

theorem Spreads.refl (s : Store) : Spreads s s := ⟨rfl, fun _ _ h => .inl h, fun _ _ h => h⟩

theorem Spreads.trans (h : Spreads s s') (h' : Spreads s' s'') : Spreads s s'' where
  rest := by rw [h'.rest, h.rest]
  rows := fun x row hrow => (h'.rows x row hrow).elim (h.rows x row) .inr
  mentions := fun x v hv => h.mentions x v (h'.mentions x v hv)

theorem moveArgument_spreads {use id : Int} {u : DirectiveUse} {a : FieldArgument}
    (hu : (s.directives .selection).uses.get? use = some u)
    (ha : s.fieldArguments.get? id = some a) (hs : a.selection = u.owner) :
    Spreads s (moveArgument use s (id, a)) := by
  refine ⟨rfl, fun _ _ hrow => .inl hrow, fun x v hv => ?_⟩
  rcases hv with ⟨b, hb, hx, hv⟩ | ⟨b, hb, u', hu', hx, hv⟩
  · exact .inl ⟨b, Table.mem_rows_erase hb, hx, hv⟩
  · have hb : b ∈ ((s.directives .selection).arguments.push
        ⟨use, a.name, a.value, a.position⟩).rows := hb
    rw [Table.rows_push] at hb
    rcases List.mem_append.mp hb with hb | hb
    · exact .inr ⟨b, hb, u', hu', hx, hv⟩
    · -- The value that was moved stood on the selection before.
      obtain rfl := List.mem_singleton.mp hb
      have same : u = u' := Option.some.inj (hu.symm.trans hu')
      exact .inl ⟨a, Table.mem_rows_of_get? ha, hs.trans (same ▸ hx), hv⟩

theorem addDirective_spreads (hs : s.Closed) (row : DirectiveUse) :
    Spreads s (s.addDirective .selection row).1 := by
  refine ⟨rfl, fun _ _ hrow => .inl hrow, fun x v hv => ?_⟩
  refine hv.imp_right ?_
  rintro ⟨a, ha, u, hu, hx, hv⟩
  obtain ⟨u', hu'⟩ := Table.contains_iff.mp ((hs.directives .selection).arguments a ha).1
  have same : (s.directives .selection).uses.get? a.owner = some u :=
    (Table.get?_push_of_le (Table.le_issued hu')).symm.trans hu
  exact ⟨a, ha, u, same, hx, hv⟩

theorem spreadComponent_spreads (hs : s.Closed) (found : Int × ComponentField) :
    Spreads s (s.spreadComponent found) := by
  obtain ⟨selection, c⟩ := found
  let row : SelectionRow := ⟨Framework.componentFragment c.type c.field, none, .fragment, none⟩
  have changed : Spreads s { s with selections := s.selections.modify selection fun _ => row } := by
    refine ⟨rfl, fun x r hr => ?_, fun _ _ hv => hv⟩
    rw [show Table.get? _ x = _ from Table.get?_modify ..] at hr
    split at hr
    · obtain ⟨_, _, rfl⟩ := Option.map_eq_some_iff.mp hr
      exact .inr rfl
    · exact .inl hr
  have closed : Closed { s with selections := s.selections.modify selection fun _ => row } :=
    hs.withSelections fun _ => Table.contains_modify ..
  rw [spreadComponent]
  split
  · exact changed
  · exact spreadArguments_induction (P := fun t => Spreads s t)
      (fun t use id a u ht hu ha hs => ht.trans (moveArgument_spreads hu ha hs))
      (changed.trans (addDirective_spreads closed _))

theorem spreadComponentFields_spreads (h : s.Ready G) : Spreads s s.spreadComponentFields.1 :=
  (spreadComponentFields_induction (P := fun t => Spreads s t) h (.refl s)
    fun _ found ready spreads => spreads.trans (spreadComponent_spreads ready.closed found)).2

end Store

namespace Project

open Store

/-- After loading the documents of a project stay as they are until it is validated. Only component
fields come to the schema. -/
theorem analyse_agrees {p : Project} {s₀ s : Store} {found : Diagnostics}
    (prepared : p.prepare = .ok s₀) (analysed : p.analyse s₀ = .ok (s, found)) :
    Agrees s₀.loadSources.1 s ∧ ∀ id f, s.schema.fields.get? id = some f →
      s₀.loadSources.1.schema.fields.get? id = some f ∨ f.type.name = Framework.componentType := by
  obtain ⟨ready, hc⟩ := prepare_ready prepared
  have loaded := loadSources_ready ready
  have marked := retypeScalars_marking loaded.ready p.config.runtimeScalars
  have registered := discoverComponentFields_registering marked.ready
    (by rw [marked.schema, loaded.schema]; exact hc)
  obtain ⟨s₁, s₂, _, _, _, h₁, h₂, h₃, _⟩ := analyse_eq_ok analysed
  have relists := (Rule.suites_induction (fun _ _ _ => checkPaging_relists)
    (discoverLists_relists h₁) h₂ h₃).2
  refine ⟨(marked.agrees.trans registered.agrees).trans (relists.agrees registered.ready.closed),
    fun id f hf => ?_⟩
  have same : s.schema = (s₀.loadSources.1.retypeScalars
      p.config.runtimeScalars).1.discoverComponentFields.1.schema := relists.schema
  rcases registered.fields id f (same ▸ hf) with hf | hf
  · exact .inl (marked.schema ▸ hf)
  · exact .inr hf

end Project

end GraphDoc
