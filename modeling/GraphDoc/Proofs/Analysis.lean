import GraphDoc.Compile
import GraphDoc.Proofs.Loading
import GraphDoc.Proofs.Schema
import GraphDoc.Proofs.Store.Resemblance

/-!
# Analysing keeps the store ready

A prepared project is ready, and loading, the runtime scalars, the discovery of component fields and
lists and the rules keep it so. None of them places a selection again, so no document borrows from
another. After loading the documents stay as they are, but for the names of spreads.
-/

set_option autoImplicit false

namespace GraphDoc

open Table

namespace Store

variable {s s' : Store} {G : Int → Prop}

/-! ## Preparing -/

theorem Closed.addSource (h : s.Closed) (row : Source) : (s.addSource row).1.Closed := by
  have grow : ∀ {id}, s.sources.contains id →
      (s.sources.push row).contains id := contains_push_of_contains
  refine { h with documents := fun d hd => grow (h.documents d hd), lists := fun l hl => ?_ }
  obtain ⟨hs, hd⟩ := h.lists l hl
  exact ⟨grow hs, hd⟩

theorem Ready.addSource (h : s.Ready G) (row : Source) : (s.addSource row).1.Ready G :=
  h.of_tables { h.toSound with closed := h.closed.addSource row } ⟨rfl, rfl, rfl, rfl⟩
    fun o _ _ ho => .inl (by cases o <;> exact ho)

theorem ready_of_schema {schema : Schema} {c : Config}
    (h : Closed { Store.empty.configure c with schema := schema }) :
    Ready NoBorrowers { Store.empty.configure c with schema := schema } := by
  have none_owned : ∀ o, ({ Store.empty.configure c with schema := schema } : Store).owns o =
      none := by
    intro o
    cases o with
    | directive site id => cases site <;> rfl
    | _ => rfl
  exact
    { closed := h
      single := fun o _ _ ho => absurd ho (by rw [none_owned]; exact nofun)
      descends := fun _ hl => absurd hl List.not_mem_nil
      shaped := fun _ hl => absurd hl List.not_mem_nil
      together := fun _ hl => absurd hl List.not_mem_nil
      arguments := fun _ ha => absurd ha List.not_mem_nil
      directives := fun site _ _ _ _ ha => absurd ha (by cases site <;> exact List.not_mem_nil)
      declared := fun _ hv => absurd hv List.not_mem_nil
      shallow := fun n x hx => by
        cases hx with
        | here => decide
        | down _ hp => exact absurd hp List.not_mem_nil
      written := fun o _ _ ho => absurd ho (by rw [none_owned]; exact nofun)
      homed := fun _ hp => absurd hp List.not_mem_nil
      listed := fun _ hl => absurd hl List.not_mem_nil }

theorem addSources_ready (sources : List Source) (h : s.Ready G) :
    (s.addSources sources).1.Ready G ∧ (s.addSources sources).1.schema = s.schema := by
  refine List.foldlRecOn sources _ (motive := fun r : Store × List Int =>
    r.1.Ready G ∧ r.1.schema = s.schema) ⟨h, rfl⟩ ?_
  exact fun r hr source _ => ⟨hr.1.addSource source, hr.2⟩

theorem commit_eq_ok {α : Type} {outcome : Except Failure (Store × α)} {a : α}
    (h : s.commit outcome = (s', .ok a)) : outcome = .ok (s', a) ∧ s'.Closed := by
  revert h
  fun_cases commit s outcome with
  | case2 after b hc =>
    rintro ⟨⟩
    exact ⟨rfl, (closed_iff _).mp hc⟩
  | _ => exact fun h => nomatch h

theorem loadSchema_eq_ok {text : String} (h : s.loadSchema text = (s', .ok ())) :
    s'.Closed ∧ s'.schema.types.contains Framework.componentType ∧
    ∃ schema, s' = { s with schema := schema } := by
  obtain ⟨hs, hclosed⟩ := commit_eq_ok h
  split at hs
  · cases hs
  · next ds _ =>
    cases hs
    exact ⟨hclosed, Schema.contains_componentType_addAll ds s.schema, _, rfl⟩

/-! ## Runtime scalars -/

/-- A directive with one plain argument can be put on any row of a document. -/
theorem addMarker_ready (h : s.Ready G) (site : Site) {owner document : Int}
    (hd : s.documents.contains document) (ho : s.isOwner site owner)
    (ha : s.Admits G site owner document) {kind : ValueKind} {raw : String}
    (hw : (Value.leaf kind raw).Written) (tag name : String) (expected? : Option TypeRef)
    (p : Position) :
    let marked := (s.addDirective site ⟨owner, tag, p⟩).1
    let filled := marked.addValueRow ⟨kind, raw, expected?, some document, p⟩
    let done := filled.1.addDirectiveArgument site
      ⟨(s.directives site).uses.nextId, name, filled.2, p⟩
    done.1.Ready G ∧ SameNames s done.1 ∧
      ∀ v, s.values.contains v → done.1.read v = s.read v := by
  have ready : (s.addDirective site ⟨owner, tag, p⟩).1.Ready G := h.addDirective ho
  have same : SameNames s (s.addDirective site ⟨owner, tag, p⟩).1 := .setDirectives ..
  have hu : ((s.addDirective site ⟨owner, tag, p⟩).1.directives site).uses.get?
      (s.directives site).uses.nextId = some ⟨owner, tag, p⟩ := by
    simp [addDirective]
  have added := ready.addValue (same.documents ▸ hd) p expected? hw
  have same' := same.trans (.of_revalues added.adds.rest)
  refine ⟨?_, same'.trans (.setDirectives ..), fun v hv => ?_⟩
  · refine (added.ready ready).addDirectiveArgument (u := ⟨owner, tag, p⟩) ?_ added.here added.free
      ((same'.admits ha).houses added.document) ?_
    · rwa [added.adds.directives]
    · exact (congrArg Value.Written added.reads).mpr hw
  · have hv' : (s.addDirective site ⟨owner, tag, p⟩).1.values.contains v := by
      cases site <;> exact hv
    exact (read_setDirectives ..).trans
      ((added.read_old ready.toSound hv').trans (read_setDirectives ..))

/-- What is kept while variables are marked. -/
structure Marking (s t : Store) : Prop where
  ready : t.Ready NoBorrowers
  documents : t.documents = s.documents
  declarations : ∀ id, t.declarations.contains id = s.declarations.contains id
  schema : t.schema = s.schema
  lists : t.lists = s.lists
  agrees : Agrees s t

theorem Marking.refl (h : s.Ready NoBorrowers) : Marking s s :=
  ⟨h, rfl, fun _ => rfl, rfl, rfl, .refl s⟩

theorem Marking.trans (h : Marking s s') {s'' : Store} (h' : Marking s' s'') : Marking s s'' :=
  ⟨h'.ready, h'.documents.trans h.documents,
    fun id => (h'.declarations id).trans (h.declarations id), h'.schema.trans h.schema,
    h'.lists.trans h.lists, h.agrees.trans h'.agrees⟩

theorem retype_marking (h : s.Ready NoBorrowers) (runtime sentAs : String)
    {entry : Int × VariableRow} (he : s.declarations.contains entry.1)
    (hd : s.documents.contains entry.2.document) :
    Marking s (retype runtime sentAs s entry) := by
  have ready : Ready NoBorrowers { s with declarations := s.declarations.modify entry.1 fun v =>
      { v with type := ⟨sentAs, v.type.modifiers⟩ } } :=
    h.modifyDeclaration (fun _ => rfl) fun _ _ => .inl rfl
  have owner : (s.declarations.modify entry.1 fun v =>
      { v with type := ⟨sentAs, v.type.modifiers⟩ }).contains entry.1 := by
    rwa [contains_modify]
  obtain ⟨ready', same, reads⟩ := addMarker_ready ready .declaration hd owner trivial
    ⟨.string runtime, .string runtime, rfl⟩ Framework.runtimeScalarTag Framework.typeArgument
    (some ⟨"String", "!"⟩) entry.2.position
  refine ⟨ready', same.documents, fun id => ?_, same.schema, same.lists, ?_⟩
  · exact (congrArg (·.contains id) same.declarations).trans (contains_modify ..)
  · refine .of_reads h.closed (fun d => congrArg (fun t => (t.get? d).map (·.kind))
      same.documents) same.placements
      (fun x => congrArg (·.contains x) same.selections) (fun x row hrow => ?_) rfl rfl
      (fun v hv => ?_) fun id => ?_
    · exact ⟨row.name, same.selections ▸ hrow, fun _ => rfl⟩
    · exact (reads v hv).trans (by apply read_of_tables <;> rfl)
    · have hget : (retype runtime sentAs s entry).declarations.get? id = _ :=
        (congrArg (·.get? id) same.declarations).trans (get?_modify ..)
      rw [hget]
      split
      · rw [Option.map_map]
        rfl
      · rfl

theorem retypeScalar_marking {outcome : Store × Nat} (h : outcome.1.Ready NoBorrowers)
    (scalar : String × String) : Marking outcome.1 (retypeScalar outcome scalar).1 := by
  refine List.foldlRecOn (motive := fun t => Marking outcome.1 t) _ _ (.refl h)
    fun t ht entry he => ?_
  have hm := (List.mem_filter.mp he).1
  refine ht.trans (retype_marking ht.ready _ _ ?_ ?_)
  · exact (ht.declarations _).trans (contains_of_get? (get?_of_mem hm))
  · rw [ht.documents]
    exact (h.closed.declarations _ (mem_rows_of_get? (get?_of_mem hm))).1

theorem retypeScalars_marking (h : s.Ready NoBorrowers) (scalars : NameMap String) :
    Marking s (s.retypeScalars scalars).1 :=
  List.foldlRecOn (motive := fun outcome : Store × Nat => Marking s outcome.1) scalars _ (.refl h)
    fun _ ht scalar _ => ht.trans (retypeScalar_marking ht.ready scalar)

/-! ## Component fields -/

/-- What is kept while component fields are entered. -/
structure Registering (s t : Store) : Prop where
  ready : t.Ready NoBorrowers
  lists : t.lists = s.lists
  types : t.schema.types = s.schema.types
  fields : ∀ id f, t.schema.fields.get? id = some f →
    s.schema.fields.get? id = some f ∨ f.type.name = Framework.componentType
  agrees : Agrees s t

theorem Registering.refl (h : s.Ready NoBorrowers) : Registering s s :=
  ⟨h, rfl, rfl, fun _ _ hf => .inl hf, .refl s⟩

theorem Registering.trans (h : Registering s s') {s'' : Store} (h' : Registering s' s'') :
    Registering s s'' :=
  ⟨h'.ready, h'.lists.trans h.lists, h'.types.trans h.types,
    fun id f hf => (h'.fields id f hf).elim (h.fields id f) .inr, h.agrees.trans h'.agrees⟩

theorem Registering.documents (h : Registering s s') (id : Int) :
    s'.documents.contains id = s.documents.contains id := by
  have key := congrArg Option.isSome (h.agrees.kinds id)
  rwa [Option.isSome_map, Option.isSome_map] at key

theorem renameFragment_registering (h : s.Ready NoBorrowers) (document : Int) (old new : String) :
    Registering s (s.renameFragment document old new) := by
  let t := s.renameFragment document old new
  have selections : Closed { s with selections := t.selections } :=
    h.closed.withSelections fun id => contains_mapRows ..
  have sources : ∀ d ∈ t.documents.rows, s.sources.contains d.source := by
    intro d hd
    rcases mem_rows_modify hd with hd | ⟨d₀, h₀, rfl⟩
    · exact h.closed.documents d hd
    · exact h.closed.documents d₀ (mem_rows_of_get? h₀)
  have closed : t.Closed := selections.withDocuments (fun id => contains_modify ..) sources
  refine ⟨?_, rfl, rfl, fun _ _ hf => .inl hf, ?_⟩
  · exact h.of_tables { h.toSound with closed } ⟨rfl, rfl, rfl, rfl⟩
      fun o _ _ ho => .inl (by cases o <;> exact ho)
  · refine .of_reads h.closed (fun d => ?_) rfl (fun _ => contains_mapRows ..)
      (fun x row hrow => ?_) rfl rfl
      (fun v _ => by apply read_of_tables <;> rfl) fun _ => rfl
    · rw [show t.documents.get? d = _ from get?_modify ..]
      split
      · rw [Option.map_map]
        rfl
      · rfl
    refine ⟨if row.kind = .fragment && row.name == old then new else row.name, ?_, fun hk => ?_⟩
    · refine (get?_mapRows ..).trans ?_
      rw [hrow, Option.map_some]
      split <;> rfl
    · simp [hk]

theorem enterField_registering (h : s.Ready NoBorrowers) {document : Int}
    (hd : s.documents.contains document) (c : ComponentField) (id : String) {f : FieldRow}
    (hp : s.schema.types.contains f.parent) (hf : f.type.name = Framework.componentType)
    (ht : s.schema.types.contains f.type.name) :
    Registering s { s with
      componentFields := s.componentFields.put document c
      schema := { s.schema with fields := s.schema.fields.add id f } } := by
  refine ⟨?_, rfl, rfl, fun other g hg => ?_, .of_reads h.closed (fun _ => rfl) rfl
    (fun _ => rfl) (fun _ row hrow => ⟨row.name, hrow, fun _ => rfl⟩) rfl rfl
    (fun v _ => by apply read_of_tables <;> rfl) fun _ => rfl⟩
  rotate_left
  · rw [show Keyed.get? _ other = _ from Keyed.get?_add ..] at hg
    split at hg
    · next he =>
      cases hold : s.schema.fields.get? id with
      | none =>
        rw [hold] at hg
        cases hg
        exact .inr hf
      | some g' =>
        rw [hold] at hg
        cases hg
        exact .inl (he ▸ hold)
    · exact .inl hg
  refine h.of_tables { h.toSound with closed := { h.closed with
    componentFields := fun row hr => ?_
    schema := Schema.closed_addField h.closed.schema id hp ht } } ⟨rfl, rfl, rfl, rfl⟩
    fun o _ _ ho => .inl (by cases o <;> exact ho)
  rcases Keyed.mem_rows_put hr with ⟨hr, _⟩ | rfl
  · exact h.closed.componentFields row hr
  · exact hd

theorem registerComponent_registering (h : s.Ready NoBorrowers) {d : ComponentField.Declaration}
    (hd : s.documents.contains d.document)
    (hcondition : s.schema.types.contains d.condition)
    (hcomponent : s.schema.types.contains Framework.componentType) :
    Registering s (s.registerComponent d) := by
  have renamed : Registering s (if d.name == Framework.componentFragment d.condition d.field then s
      else s.renameFragment d.document d.name
        (Framework.componentFragment d.condition d.field)) := by
    split
    · exact .refl h
    · exact renameFragment_registering h ..
  refine renamed.trans (enterField_registering renamed.ready ?_ _ _ ?_ rfl ?_)
  · exact (renamed.documents _).trans hd
  · rw [renamed.types]
    exact hcondition
  · rw [renamed.types]
    exact hcomponent

theorem mem_componentDeclarations {d : ComponentField.Declaration}
    (h : d ∈ s.componentDeclarations) : s.documents.contains d.document := by
  obtain ⟨⟨id, row⟩, he, h⟩ := List.mem_flatMap.mp h
  obtain ⟨_, h⟩ := List.mem_ite_nil_right.mp h
  obtain ⟨⟨use, u⟩, _, h⟩ := List.mem_filterMap.mp h
  simp only [Option.ite_none_right_eq_some] at h
  obtain ⟨source, _, rfl⟩ := Option.map_eq_some_iff.mp h.2
  exact contains_of_get? (get?_of_mem he)

theorem contains_of_problem?_eq_none {schema : Schema} {d : ComponentField.Declaration}
    (h : d.problem? schema = none) : schema.types.contains d.condition := by
  rw [ComponentField.Declaration.problem?] at h
  split at h
  · cases h
  · split at h
    · cases h
    · split at h
      · cases h
      · next kind hk =>
        rw [Keyed.contains_eq]
        obtain ⟨row, hrow, _⟩ := Option.map_eq_some_iff.mp hk
        rw [hrow]
        rfl

theorem registerGroup_registering {outcome : Store × Diagnostics × List String}
    {group : List ComponentField.Declaration} (h : outcome.1.Ready NoBorrowers)
    (hg : ∀ d ∈ group, outcome.1.documents.contains d.document ∧
      outcome.1.schema.types.contains d.condition)
    (hcomponent : outcome.1.schema.types.contains Framework.componentType) :
    Registering outcome.1 (registerGroup outcome group).1 := by
  cases group with
  | nil => exact .refl h
  | cons d others =>
    obtain ⟨hd, hcondition⟩ := hg d List.mem_cons_self
    rw [registerGroup]
    simp only
    split
    · exact .refl h
    · exact registerComponent_registering h hd hcondition hcomponent

theorem discoverComponentFields_registering (h : s.Ready NoBorrowers)
    (hcomponent : s.schema.types.contains Framework.componentType) :
    Registering s s.discoverComponentFields.1 := by
  refine List.foldlRecOn (motive := fun outcome : Store × Diagnostics × List String =>
    Registering s outcome.1) _ _ (.refl h) fun outcome ht group hgroup => ?_
  refine ht.trans (registerGroup_registering ht.ready (fun d hd => ?_) (ht.types ▸ hcomponent))
  obtain ⟨key, _, rfl⟩ := List.mem_map.mp hgroup
  obtain ⟨hm, hp⟩ := List.mem_filter.mp (List.mem_filter.mp hd).1
  rw [ht.documents, ht.types]
  exact ⟨mem_componentDeclarations hm, contains_of_problem?_eq_none (Option.isNone_iff_eq_none.mp hp)⟩

/-! ## Lists -/

/-- What a list refers to is there, and its field is placed in its document. -/
structure Roots (s : Store) (l : ListRow) : Prop where
  source : s.sources.contains l.source = true
  document : s.documents.contains l.document = true
  listField : s.selections.contains l.listField = true
  node : s.selections.contains l.node = true
  placed : ∃ p ∈ s.placements.rows, p.child = l.listField ∧ p.document = l.document

theorem Ready.roots (h : s.Ready G) {l : ListRow} (hl : l ∈ s.lists.rows) : s.Roots l := by
  obtain ⟨hs, hd, hf, hn⟩ := h.closed.lists l hl
  exact ⟨hs, hd, hf, hn, h.listed l hl⟩

theorem Ready.withLists (h : s.Ready G) {lists : Table ListRow}
    (hl : ∀ l ∈ lists.rows, s.Roots l) : Ready G { s with lists := lists } := by
  have closed : Closed { s with lists := lists } := { h.closed with lists := fun l hm =>
    ⟨(hl l hm).source, (hl l hm).document, (hl l hm).listField, (hl l hm).node⟩ }
  refine { h.toSound with closed, written := fun o v hc ho => ?_, homed := h.homed,
                          listed := fun l hm => (hl l hm).placed }
  have same : read { s with lists := lists } v = s.read v := by
    apply read_of_tables <;> rfl
  rw [same]
  exact h.written o v hc (by cases o <;> exact ho)

theorem mem_taggedFields {t : ListField.Tagged} (h : t ∈ s.taggedFields) :
    (∃ p ∈ s.placements.rows, p.child = t.selection ∧ p.document = t.document) ∧
      ∃ row, s.selections.get? t.selection = some row ∧ row.kind = .field := by
  rw [taggedFields, mem_sortBy_iff, mem_distinct_iff] at h
  obtain ⟨p, hp, h⟩ := List.mem_filterMap.mp h
  split at h
  · next row hrow =>
    split at h
    · next tagged =>
      cases h
      rw [Bool.and_eq_true, decide_eq_true_eq] at tagged
      exact ⟨⟨p, hp, rfl, rfl⟩, row, hrow, tagged.1⟩
    · cases h
  · cases h

theorem contains_of_childField {document parent id : Int} {field : String}
    (h : s.childField document parent field = some id) : s.selections.contains id := by
  obtain ⟨⟨p, row⟩, hf, rfl⟩ := Option.map_eq_some_iff.mp h
  obtain ⟨q, _, hq⟩ := List.mem_filterMap.mp (List.mem_of_find?_eq_some hf)
  obtain ⟨row', hrow, he⟩ := Option.map_eq_some_iff.mp hq
  cases he
  exact contains_of_get? hrow

theorem contains_of_listShape {t : ListField.Tagged} {name : String} {type : TypeRef}
    {nodeType : String} {edgeType? connectionType? : Option String} {node : Int}
    (ht : s.selections.contains t.selection)
    (h : s.listShape t name type = .ok (nodeType, edgeType?, connectionType?, node)) :
    s.selections.contains node := by
  rw [listShape] at h
  split at h
  · split at h
    · cases h
      exact ht
    · cases h
  · split at h
    · simp only at h
      split at h
      · next hnode =>
        cases h
        obtain ⟨edges, _, hn⟩ := Option.bind_eq_some_iff.mp hnode
        exact contains_of_childField hn
      · cases h
    · cases h

/-- List `l` is that of a tagged field with the given selection, document and declaration. -/
structure ListOf (s : Store) (t : ListField.Tagged) (row : SelectionRow) (d : DocumentRow)
    (field : FieldRow) (l : ListRow) : Prop where
  selected : s.selections.get? t.selection = some row
  written : s.documents.get? t.document = some d
  declared : row.type?.bind s.schema.fields.get? = some field
  shape : s.listShape t row.name field.type =
    .ok (l.nodeType, l.edgeType?, l.connectionType?, l.node)
  source : l.source = d.source
  document : l.document = t.document
  listField : l.listField = t.selection
  connection : l.connection = !field.type.isList
  unpaged : l.paginate = .unpaged
  embedded : l.embedded = decide (d.kind = .fragment)

theorem listOutcome_found {config : Config} {t : ListField.Tagged} {l : ListRow}
    {location : Location} (ho : s.listOutcome config t = .ok (.found l location)) :
    ∃ row d field, s.ListOf t row d field l := by
  rw [listOutcome] at ho
  split at ho
  · next row d hrow hd =>
    obtain ⟨_, _, ho⟩ := bind_eq_ok.mp ho
    split at ho
    · next field hfield =>
      obtain ⟨_, _, ho⟩ := bind_eq_ok.mp ho
      simp only at ho
      split at ho
      · cases ho
      · next shape =>
        obtain ⟨_, _, ho⟩ := bind_eq_ok.mp ho
        cases ho
        exact ⟨row, d, field, hrow, hd, hfield, shape, rfl, rfl, rfl, rfl, rfl, rfl⟩
    · cases ho
  · cases ho

theorem ListOf.roots {t : ListField.Tagged} {row : SelectionRow} {d : DocumentRow}
    {field : FieldRow} {l : ListRow} (h : s.ListOf t row d field l) (hs : s.Closed)
    (ht : t ∈ s.taggedFields) : s.Roots l where
  source := h.source ▸ hs.documents d (mem_rows_of_get? h.written)
  document := h.document ▸ contains_of_get? h.written
  listField := h.listField ▸ contains_of_get? h.selected
  node := contains_of_listShape (contains_of_get? h.selected) h.shape
  placed := by
    rw [h.listField, h.document]
    exact (mem_taggedFields ht).1

/-- Discovery adds lists of tagged fields. -/
theorem mem_discoverLists {config : Config} {found : Diagnostics}
    (h : s.discoverLists config = .ok (s', found)) {l : ListRow} (hl : l ∈ s'.lists.rows) :
    l ∈ s.lists.rows ∨ ∃ t ∈ s.taggedFields, ∃ row d field, s.ListOf t row d field l := by
  obtain ⟨outcomes, ho, h⟩ := bind_eq_ok.mp h
  cases h
  rw [rows_foldl_push, List.mem_append] at hl
  refine hl.imp_right fun hl => ?_
  obtain ⟨outcome, hm, he⟩ := List.mem_filterMap.mp hl
  obtain ⟨t, ht, hf⟩ := exists_of_mem_mapM ho hm
  cases outcome with
  | found row location =>
    cases he
    exact ⟨t, ht, listOutcome_found hf⟩
  | _ => cases he

theorem discoverLists_ready (h : s.Ready NoBorrowers) {config : Config} {found : Diagnostics}
    (hl : s.discoverLists config = .ok (s', found)) : s'.Ready NoBorrowers := by
  have roots : ∀ l ∈ s'.lists.rows, s.Roots l := fun l hm => by
    rcases mem_discoverLists hl hm with hm | ⟨t, ht, _, _, _, list⟩
    · exact h.roots hm
    · exact list.roots h.closed ht
  obtain ⟨outcomes, _, hl⟩ := bind_eq_ok.mp hl
  cases hl
  exact h.withLists roots

/-! ## Rules -/

/-- A list that asks for no pages is passed over; how another one pages is recorded or reported. -/
theorem checkPaging_cases {outcome outcome' : Store × Diagnostics} {entry : Int × ListRow}
    (hc : Rule.checkPaging outcome entry = .ok outcome') :
    (outcome.1.hasDirective entry.2.listField Framework.paginateTag = false ∧ outcome' = outcome) ∨
    outcome.1.hasDirective entry.2.listField Framework.paginateTag ∧
      ((∃ applied p, Rule.paging outcome.1 entry.2 applied = .ok p ∧ outcome' =
        ({ outcome.1 with lists := outcome.1.lists.modify entry.1 (Rule.record p) }, outcome.2)) ∨
      ∃ d, outcome' = (outcome.1, outcome.2 ++ [d])) := by
  rw [Rule.checkPaging] at hc
  split at hc
  · next untagged =>
    cases hc
    exact .inl ⟨by simpa using untagged, rfl⟩
  · next tagged =>
    refine .inr ⟨by simpa using tagged, ?_⟩
    obtain ⟨_, _, hc⟩ := bind_eq_ok.mp hc
    obtain ⟨_, _, hc⟩ := bind_eq_ok.mp hc
    split at hc
    · next p hp =>
      cases hc
      exact .inl ⟨_, p, hp, rfl⟩
    · cases hc
      exact .inr ⟨_, rfl⟩

/-- What recording a list keeps is kept by checking it. -/
theorem checkPaging_keeps {P : Store → Prop} {outcome outcome' : Store × Diagnostics}
    {entry : Int × ListRow} (h : P outcome.1) (record : ∀ p, P { outcome.1 with
      lists := outcome.1.lists.modify entry.1 (Rule.record p) })
    (hc : Rule.checkPaging outcome entry = .ok outcome') : P outcome'.1 := by
  obtain ⟨_, rfl⟩ | ⟨_, ⟨_, p, _, rfl⟩ | ⟨_, rfl⟩⟩ := checkPaging_cases hc
  · exact h
  · exact record p
  · exact h

theorem checkPaging_ready {outcome outcome' : Store × Diagnostics} {entry : Int × ListRow}
    (h : outcome.1.Ready NoBorrowers) (hc : Rule.checkPaging outcome entry = .ok outcome') :
    outcome'.1.Ready NoBorrowers := by
  refine checkPaging_keeps h (fun p => h.withLists fun l hl => ?_) hc
  rcases mem_rows_modify hl with hl | ⟨l₀, h₀, rfl⟩
  · exact h.roots hl
  · have roots := h.roots (mem_rows_of_get? h₀)
    exact ⟨roots.source, roots.document, roots.listField, roots.node, roots.placed⟩

end Store

namespace Rule

open Store

variable {P : Store → Prop}

/-- A rule that keeps a property of stores. -/
def Keeps (P : Store → Prop) (r : Rule) : Prop := ∀ config s outcome, P s →
  r.run config s = .ok outcome → P outcome.1

theorem keeps_reading {name : String} {check : Config → Store → Except Failure Diagnostics} :
    Keeps P (reading name check) := by
  intro config s outcome h hr
  obtain ⟨_, _, hr⟩ := bind_eq_ok.mp hr
  cases hr
  exact h

/-- Only one rule writes. -/
theorem keeps_of_writing (writing : Keeps P paginateArguments) :
    ∀ r ∈ sweeps ++ rules, Keeps P r := by
  simp only [sweeps, rules, List.cons_append, List.nil_append, List.forall_mem_cons]
  refine ⟨keeps_reading, keeps_reading, writing, ?_⟩
  refine ⟨keeps_reading, keeps_reading, keeps_reading, keeps_reading, keeps_reading, keeps_reading,
    keeps_reading, keeps_reading, keeps_reading, keeps_reading, keeps_reading, keeps_reading,
    keeps_reading, keeps_reading, keeps_reading, keeps_reading, ?_⟩
  exact fun r hr => absurd hr List.not_mem_nil

/-- The rule that writes checks list by list. -/
theorem keeps_of_mem (paging : ∀ outcome entry outcome', P outcome.1 →
      checkPaging outcome entry = .ok outcome' → P outcome'.1) :
    ∀ r ∈ sweeps ++ rules, Keeps P r :=
  keeps_of_writing fun _ s _ h hr => foldlM_induction (P := fun t => P t.1) s.lists.entries
    (fun _ _ _ _ ht hc => paging _ _ _ ht hc) h hr

theorem runAll_induction {rs : List Rule} (hrs : ∀ r ∈ rs, Keeps P r) {config : Config} {s : Store}
    {outcome : Store × Diagnostics} (h : P s) (hr : runAll rs config s = .ok outcome) :
    P outcome.1 := by
  refine foldlM_induction (P := fun t => P t.1) rs (fun t t' r hm ht hstep => ?_) h hr
  obtain ⟨⟨s', more⟩, hrun, hstep⟩ := bind_eq_ok.mp hstep
  cases hstep
  exact hrs r hm config t.1 (s', more) ht hrun

/-- What the writing rule keeps holds after both suites. -/
theorem suites_induction (paging : ∀ outcome entry outcome', P outcome.1 →
      checkPaging outcome entry = .ok outcome' → P outcome'.1) {config : Config}
    {s : Store} {swept ruled : Store × Diagnostics} (h : P s)
    (hswept : runAll sweeps config s = .ok swept)
    (hruled : runAll rules config swept.1 = .ok ruled) : P swept.1 ∧ P ruled.1 := by
  have after := runAll_induction (fun r hr => keeps_of_mem paging r (List.mem_append_left _ hr)) h
    hswept
  exact ⟨after, runAll_induction (fun r hr => keeps_of_mem paging r (List.mem_append_right _ hr))
    after hruled⟩

end Rule

namespace Project

open Store

theorem loadSchema_of_prepare {p : Project} {s : Store} (h : p.prepare = .ok s) :
    ∃ t, (Store.empty.configure p.config).loadSchema p.schema = (t, .ok ()) ∧
      s = (t.addSources p.sources).1 := by
  unfold prepare at h
  generalize (Store.empty.configure p.config).loadSchema p.schema = r at h ⊢
  obtain ⟨t, f | ⟨⟩⟩ := r
  · cases h
  · exact ⟨t, rfl, (Except.ok.inj h).symm⟩

theorem prepare_ready {p : Project} {s : Store} (h : p.prepare = .ok s) :
    s.Ready NoBorrowers ∧ s.schema.types.contains Framework.componentType := by
  obtain ⟨t, hl, rfl⟩ := loadSchema_of_prepare h
  obtain ⟨hclosed, hcomponent, schema, ht⟩ := loadSchema_eq_ok hl
  have ready : t.Ready NoBorrowers := by
    subst ht
    exact ready_of_schema hclosed
  obtain ⟨ready', same⟩ := addSources_ready p.sources ready
  exact ⟨ready', same ▸ hcomponent⟩

/-- A prepared store has a schema and sources, and nothing else. -/
theorem prepare_rest {p : Project} {s : Store} (h : p.prepare = .ok s) :
    s = { Store.empty.configure p.config with schema := s.schema, sources := s.sources } := by
  obtain ⟨t, hl, rfl⟩ := loadSchema_of_prepare h
  obtain ⟨_, _, schema, rfl⟩ := loadSchema_eq_ok hl
  exact List.foldlRecOn p.sources _ (motive := fun r : Store × List Int => r.1 =
    { Store.empty.configure p.config with schema := r.1.schema, sources := r.1.sources }) rfl
    fun r hr source _ => congrArg (fun t : Store => (t.addSource source).1) hr

/-- The stages of an analysis. -/
theorem analyse_eq_ok {p : Project} {s₀ s : Store} {found : Diagnostics}
    (h : p.analyse s₀ = .ok (s, found)) :
    let retyped := (s₀.loadSources.1.retypeScalars p.config.runtimeScalars).1
    ∃ s₁ s₂ lists swept ruled,
      retyped.discoverComponentFields.1.discoverLists p.config = .ok (s₁, lists) ∧
      Rule.runAll Rule.sweeps p.config s₁ = .ok (s₂, swept) ∧
      Rule.runAll Rule.rules p.config s₂ = .ok (s, ruled) ∧
      found = s₀.loadSources.2 ++ retyped.discoverComponentFields.2 ++ lists ++ swept ++ ruled := by
  obtain ⟨⟨s₁, lists⟩, h₁, h⟩ := bind_eq_ok.mp h
  obtain ⟨⟨s₂, swept⟩, h₂, h⟩ := bind_eq_ok.mp h
  obtain ⟨⟨s₃, ruled⟩, h₃, h⟩ := bind_eq_ok.mp h
  cases h
  exact ⟨s₁, s₂, lists, swept, ruled, h₁, h₂, h₃, rfl⟩

/-- The stages of an analysis that finds nothing wrong. -/
theorem analyse_clean {p : Project} {s₀ s : Store} (analysed : p.analyse s₀ = .ok (s, [])) :
    let retyped := (s₀.loadSources.1.retypeScalars p.config.runtimeScalars).1
    s₀.loadSources.2 = [] ∧ retyped.discoverComponentFields.2 = [] ∧ ∃ s₁ s₂,
      retyped.discoverComponentFields.1.discoverLists p.config = .ok (s₁, []) ∧
      Rule.runAll Rule.sweeps p.config s₁ = .ok (s₂, []) ∧
      Rule.runAll Rule.rules p.config s₂ = .ok (s, []) := by
  obtain ⟨s₁, s₂, lists, swept, ruled, h₁, h₂, h₃, hfound⟩ := analyse_eq_ok analysed
  simp only [List.nil_eq, List.append_eq_nil_iff] at hfound
  obtain ⟨⟨⟨⟨loaded, discovered⟩, rfl⟩, rfl⟩, rfl⟩ := hfound
  exact ⟨loaded, discovered, s₁, s₂, h₁, h₂, h₃⟩

theorem analyse_ready {p : Project} {s : Store} (h : s.Ready NoBorrowers)
    (hc : s.schema.types.contains Framework.componentType)
    {outcome : Store × Diagnostics} (ha : p.analyse s = .ok outcome) :
    outcome.1.Ready NoBorrowers := by
  have loaded := loadSources_ready h
  have marked := retypeScalars_marking loaded.ready p.config.runtimeScalars
  have registered := discoverComponentFields_registering marked.ready
    (by rw [marked.schema, loaded.schema]; exact hc)
  obtain ⟨s₁, s₂, _, _, _, h₁, h₂, h₃, _⟩ := analyse_eq_ok ha
  have ready₁ := discoverLists_ready registered.ready h₁
  exact (Rule.suites_induction (fun _ _ _ => checkPaging_ready) ready₁ h₂ h₃).2

end Project

end GraphDoc
