import GraphDoc.Proofs.Pagination.Binding

/-!
# Paginated lists

Discovery makes a list of every tagged field that the schema knows, a sweep records how it pages, and
a rule allows one paginated field per document. After a clean validation each paginated field
therefore has one list, which shares its document with no other paginated list and pages with the
arguments that the schema declares.
-/

set_option autoImplicit false

namespace GraphDoc

open Table

namespace Schema

/-- The type of an argument that a field declares. -/
def declaredType? (s : Schema) (field name : String) : Option String :=
  (s.arguments.rows.find? fun a => a.2.field == field && a.2.name == name).map (·.2.type.name)

/-- The arguments that a field pages with, and the types of their variables: a connection has both
arguments of a direction or none. -/
def pageArguments (s : Schema) (id : String) (field : FieldRow) : List (String × String) :=
  if field.type.isList then [("limit", "Int"), ("offset", "Int")]
  else
    let declares := fun name => (s.declaredType? id name).isSome
    let cursor := ((s.declaredType? id "after").orElse fun _ => s.declaredType? id "before").getD
      "String"
    (if declares "first" && declares "after" then [("first", "Int"), ("after", cursor)] else []) ++
    (if declares "last" && declares "before" then [("last", "Int"), ("before", cursor)] else [])

end Schema

/-- Where a list stands: its field and its document. -/
def ListRow.place (l : ListRow) : Int × Int := (l.listField, l.document)

namespace Store

open ListField

variable {s s' t : Store} {l : ListRow} {x : Int} {config : Config}

/-- A placed field that carries the pagination tag and whose type the schema knows. -/
structure Paginates (s : Store) (q : Placement) (id : String) (field : FieldRow) : Prop where
  placed : q ∈ s.placements.rows
  row : ∃ row, s.selections.get? q.child = some row ∧ row.kind = .field ∧ row.type? = some id
  tagged : s.hasDirective q.child Framework.paginateTag = true
  known : s.schema.fields.get? id = some field

/-! ## The sweep -/

theorem lookup_declaredArguments {id : String}
    (typed : (s.selections.get? l.listField).bind (·.type?) = some id) (name : String) :
    (Rule.declaredArguments s l).lookup name = s.schema.declaredType? id name := by
  rw [Rule.declaredArguments, typed, Schema.declaredType?]
  simp only
  generalize s.schema.arguments.rows = rows
  induction rows with
  | nil => rfl
  | cons row rows ih =>
    rw [List.filterMap_cons, List.find?_cons]
    by_cases hfield : row.2.field = id
    · simp only [hfield, beq_self_eq_true, if_true, Bool.true_and, List.lookup_cons]
      by_cases hname : name = row.2.name
      · simp [hname]
      · simp only [beq_false_of_ne hname, beq_false_of_ne (Ne.symm hname)]
        exact ih
    · simp only [beq_false_of_ne hfield, Bool.false_eq_true, if_false, Bool.false_and]
      exact ih

theorem offsetPaging_eq_ok {declared : List (String × String)} {applied : List String}
    {p : Rule.Paging} (h : Rule.offsetPaging declared applied = .ok p) :
    p = ⟨.forward, true, false, none⟩ := by
  rw [Rule.offsetPaging] at h
  simp only at h
  split at h
  · cases h
  · split at h
    · cases h
    · cases h
      rfl

theorem connectionPaging_eq_ok {mode : PaginateMode} {declared : List (String × String)}
    {applied : List String} {p : Rule.Paging}
    (h : Rule.connectionPaging mode declared applied = .ok p) :
    p.direction ≠ .unpaged ∧
    p.supportsForward =
      ((declared.lookup "first").isSome && (declared.lookup "after").isSome) ∧
    p.supportsBackward =
      ((declared.lookup "last").isSome && (declared.lookup "before").isSome) ∧
    p.cursorType? = (declared.lookup "after").orElse fun _ => declared.lookup "before" := by
  rw [Rule.connectionPaging] at h
  simp only at h
  split at h
  · cases h
  · split at h
    · cases h
    · split at h
      · cases h
        exact ⟨by simp, rfl, rfl, rfl⟩
      · split at h
        · cases h
          exact ⟨by simp, rfl, rfl, rfl⟩
        · cases h

theorem pageArguments_of_paging {id : String} {field : FieldRow}
    (typed : (s.selections.get? l.listField).bind (·.type?) = some id)
    (connection : l.connection = !field.type.isList) {applied : List String} {p : Rule.Paging}
    (h : Rule.paging s l applied = .ok p) :
    p.direction ≠ .unpaged ∧
    (Rule.record p l).pageArguments = s.schema.pageArguments id field := by
  have declared := lookup_declaredArguments typed
  rw [Rule.paging] at h
  rw [ListRow.pageArguments, Schema.pageArguments, Rule.record]
  simp only [connection]
  split at h
  · cases h
  · simp only [connection] at h
    cases hlist : field.type.isList with
    | true =>
      simp only [hlist, Bool.not_true, Bool.false_eq_true, if_false] at h
      obtain rfl := offsetPaging_eq_ok h
      exact ⟨by decide, rfl⟩
    | false =>
      simp only [hlist, Bool.not_false, if_true] at h
      obtain ⟨direction, forward, backward, cursor⟩ := connectionPaging_eq_ok h
      refine ⟨direction, ?_⟩
      simp only [forward, backward, cursor, declared, Bool.not_false, if_true, Bool.false_eq_true,
        if_false]

/-- `l'` is the list `l` with what the sweep knows of it. -/
structure Recorded (s : Store) (l l' : ListRow) : Prop where
  listField : l'.listField = l.listField
  document : l'.document = l.document
  paged : s.hasDirective l.listField Framework.paginateTag = true →
    ∃ applied p, Rule.paging s l applied = .ok p ∧ l' = Rule.record p l

theorem Recorded.of_relists {l' : ListRow} (h : Recorded t l l') (hr : Relists s t) :
    Recorded s l l' := by
  rw [show t = _ from hr] at h
  exact ⟨h.listField, h.document, h.paged⟩

theorem checkPaging_eq_ok {found found' : Diagnostics} {id : Int}
    (h : Rule.checkPaging (t, found) (id, l) = .ok (s', found')) :
    ∃ more, found' = found ++ more ∧ (more = [] → ∃ f, Recorded t l (f l) ∧
      ∀ n, s'.lists.get? n = if n = id then (t.lists.get? n).map f else t.lists.get? n) := by
  obtain ⟨untagged, h⟩ | ⟨_, ⟨applied, p, hp, h⟩ | ⟨d, h⟩⟩ := checkPaging_cases h
  · cases h
    refine ⟨[], (List.append_nil _).symm, fun _ => ⟨fun k => k, ⟨rfl, rfl, ?_⟩, ?_⟩⟩
    · intro tagged
      exact absurd tagged (Bool.not_eq_true _ ▸ untagged)
    · intro n
      split
      · rw [Option.map_id']
      · rfl
  · cases h
    refine ⟨[], (List.append_nil _).symm, fun _ => ⟨Rule.record p, ⟨rfl, rfl, ?_⟩, ?_⟩⟩
    · intro _
      exact ⟨applied, p, hp, rfl⟩
    · intro n
      exact get?_modify ..
  · cases h
    exact ⟨[d], rfl, fun hnil => absurd hnil (List.cons_ne_nil _ _)⟩

theorem foldlM_checkPaging_clean (es : List (Int × ListRow)) {t : Store} {found : Diagnostics}
    (h : es.foldlM Rule.checkPaging (t, found) = .ok (s', [])) : found = [] := by
  induction es generalizing t found with
  | nil => exact (Prod.mk.inj (Except.ok.inj h)).2
  | cons e es ih =>
    rw [List.foldlM_cons] at h
    obtain ⟨⟨u, found'⟩, hstep, h⟩ := bind_eq_ok.mp h
    obtain ⟨more, hfound, _⟩ := checkPaging_eq_ok hstep
    exact (List.append_eq_nil_iff.mp (hfound.symm.trans (ih h))).1

theorem foldlM_checkPaging (es : List (Int × ListRow))
    (ordered : es.Pairwise fun a b => a.1 < b.1) {t : Store} (relists : Relists s t)
    (here : ∀ e ∈ es, t.lists.get? e.1 = some e.2)
    (h : es.foldlM Rule.checkPaging (t, []) = .ok (s', [])) :
    (∀ e ∈ es, ∃ l, s'.lists.get? e.1 = some l ∧ Recorded s e.2 l) ∧
    ∀ id ∉ es.map (·.1), s'.lists.get? id = t.lists.get? id := by
  induction es generalizing t with
  | nil =>
    obtain ⟨rfl, _⟩ := Prod.mk.inj (Except.ok.inj h)
    exact ⟨fun _ he => absurd he List.not_mem_nil, fun _ _ => rfl⟩
  | cons e es ih =>
    obtain ⟨hlt, ordered⟩ := List.pairwise_cons.mp ordered
    rw [List.foldlM_cons] at h
    obtain ⟨⟨u, found⟩, hstep, h⟩ := bind_eq_ok.mp h
    obtain ⟨more, hfound, hmore⟩ := checkPaging_eq_ok hstep
    obtain rfl : found = [] := foldlM_checkPaging_clean es h
    obtain ⟨f, recorded, rows⟩ := hmore hfound.symm
    have apart : ∀ e' ∈ es, e'.1 ≠ e.1 := by
      intro e' he'
      have := hlt e' he'
      omega
    obtain ⟨later, rest⟩ := ih ordered (checkPaging_relists relists hstep) (fun e' he' => by
      rw [rows, if_neg (apart e' he'), here e' (List.mem_cons_of_mem e he')]) h
    constructor
    · refine List.forall_mem_cons.mpr ⟨⟨f e.2, ?_, recorded.of_relists relists⟩, later⟩
      rw [rest, rows, if_pos rfl, here e List.mem_cons_self, Option.map_some]
      intro hm
      obtain ⟨e', he', heq⟩ := List.mem_map.mp hm
      exact apart e' he' heq
    · intro id hid
      obtain ⟨hne, hid⟩ := not_or.mp (mt List.mem_cons.mpr hid)
      rw [rest id hid, rows, if_neg hne]

theorem checkPaging_places {outcome outcome' : Store × Diagnostics} {entry : Int × ListRow}
    (h : outcome.1.lists.rows.map ListRow.place = s.lists.rows.map ListRow.place)
    (hc : Rule.checkPaging outcome entry = .ok outcome') :
    outcome'.1.lists.rows.map ListRow.place = s.lists.rows.map ListRow.place :=
  checkPaging_keeps
    (P := fun t => t.lists.rows.map ListRow.place = s.lists.rows.map ListRow.place) h
    (fun p => (map_rows_modify _ _ (Rule.record p) _ fun _ => rfl).trans h) hc

theorem sweeps_places {found : Diagnostics}
    (h : Rule.runAll Rule.sweeps config s = .ok (s', found)) :
    s'.lists.rows.map ListRow.place = s.lists.rows.map ListRow.place :=
  Rule.runAll_induction (P := fun t => t.lists.rows.map ListRow.place =
    s.lists.rows.map ListRow.place) (fun r hr => Rule.keeps_of_mem
      (fun _ _ _ => checkPaging_places) r (List.mem_append_left _ hr)) rfl h

theorem paginateArguments_of_sweeps
    (h : Rule.runAll Rule.sweeps config s = .ok (s', [])) :
    s.lists.entries.foldlM Rule.checkPaging (s, []) = .ok (s', []) := by
  rw [Rule.runAll, Rule.sweeps, List.foldlM_cons] at h
  obtain ⟨⟨u, found⟩, h₁, h⟩ := bind_eq_ok.mp h
  obtain ⟨⟨u₁, more₁⟩, r₁, h₁⟩ := bind_eq_ok.mp h₁
  obtain ⟨_, _, r₁⟩ := bind_eq_ok.mp r₁
  cases r₁
  cases h₁
  rw [List.foldlM_cons] at h
  obtain ⟨⟨u, found⟩, h₂, h⟩ := bind_eq_ok.mp h
  obtain ⟨⟨u₂, more₂⟩, r₂, h₂⟩ := bind_eq_ok.mp h₂
  obtain ⟨_, _, r₂⟩ := bind_eq_ok.mp r₂
  cases r₂
  cases h₂
  rw [List.foldlM_cons] at h
  obtain ⟨⟨u, found⟩, h₃, h⟩ := bind_eq_ok.mp h
  obtain ⟨⟨u₃, more₃⟩, r₃, h₃⟩ := bind_eq_ok.mp h₃
  cases h₃
  obtain ⟨rfl, hnil⟩ := Prod.mk.inj (Except.ok.inj h)
  obtain ⟨_, rfl⟩ := List.append_eq_nil_iff.mp hnil
  exact r₃

theorem keeps_rules {P : Store → Prop} : ∀ r ∈ Rule.rules, r.Keeps P := by
  simp only [Rule.rules, List.forall_mem_cons]
  refine ⟨Rule.keeps_reading, Rule.keeps_reading, Rule.keeps_reading, Rule.keeps_reading,
    Rule.keeps_reading, Rule.keeps_reading, Rule.keeps_reading, Rule.keeps_reading,
    Rule.keeps_reading, Rule.keeps_reading, Rule.keeps_reading, Rule.keeps_reading,
    Rule.keeps_reading, Rule.keeps_reading, Rule.keeps_reading, Rule.keeps_reading, ?_⟩
  intro r hr
  cases hr

theorem rules_keep {found : Diagnostics} (h : Rule.runAll Rule.rules config s = .ok (s', found)) :
    s' = s :=
  Rule.runAll_induction (P := fun t => t = s) keeps_rules rfl h

theorem rules_clean (h : Rule.runAll Rule.rules config s = .ok (s', [])) :
    s' = s ∧ ∀ r ∈ Rule.rules, ∃ t, r.run config s = .ok (t, []) := by
  refine ⟨rules_keep h, fun r hr => ?_⟩
  obtain ⟨_, t, rfl, run⟩ := Rule.runAll_clean (R := fun s t => t = s) (fun _ => rfl)
    (fun _ _ _ h h' => h'.trans h) (fun _ => keeps_rules) h r hr
  exact ⟨t, run⟩

/-! ## Discovery -/

theorem listOutcome_ne_unknown {tagged : Tagged} {row : SelectionRow} {document : DocumentRow}
    {field : FieldRow} (hrow : s.selections.get? tagged.selection = some row)
    (hdocument : s.documents.get? tagged.document = some document)
    (hfield : row.type?.bind s.schema.fields.get? = some field) :
    s.listOutcome config tagged ≠ .ok .unknown := by
  intro h
  rw [listOutcome, hrow, hdocument] at h
  simp only [hfield] at h
  obtain ⟨_, _, h⟩ := bind_eq_ok.mp h
  obtain ⟨_, _, h⟩ := bind_eq_ok.mp h
  split at h
  · cases h
  · obtain ⟨_, _, h⟩ := bind_eq_ok.mp h
    cases h

theorem sublist_of_mapM {α β γ κ ε : Type} {f : α → Except ε β} {g : β → Option γ} {key : γ → κ}
    {key' : α → κ} {l : List α} {bs : List β} (h : l.mapM f = .ok bs)
    (same : ∀ a b c, f a = .ok b → g b = some c → key c = key' a) :
    ((bs.filterMap g).map key).Sublist (l.map key') := by
  induction l generalizing bs with
  | nil =>
    cases h
    exact .slnil
  | cons a l ih =>
    rw [List.mapM_cons] at h
    obtain ⟨b, hb, h⟩ := bind_eq_ok.mp h
    obtain ⟨rest, hrest, h⟩ := bind_eq_ok.mp h
    cases h
    rw [List.filterMap_cons, List.map_cons]
    cases hg : g b with
    | none => exact (ih hrest).cons _
    | some c =>
      rw [List.map_cons, same a b c hb hg]
      exact (ih hrest).cons_cons _

theorem discoverLists_sublist {found : Diagnostics} (new : s.lists.rows = [])
    (h : s.discoverLists config = .ok (s', found)) :
    (s'.lists.rows.map ListRow.place).Sublist
      (s.taggedFields.map fun t => (t.selection, t.document)) := by
  obtain ⟨outcomes, ho, h⟩ := bind_eq_ok.mp h
  cases h
  rw [rows_foldl_push, new, List.nil_append]
  refine sublist_of_mapM ho fun t o l ho hl => ?_
  cases o with
  | found row location =>
    cases hl
    obtain ⟨_, _, _, list⟩ := listOutcome_found ho
    exact Prod.ext list.listField list.document
  | _ => cases hl

theorem exists_of_mem_taggedFields {tagged : Tagged} (ht : tagged ∈ s.taggedFields)
    {row : SelectionRow} {document : DocumentRow} {field : FieldRow}
    (hrow : s.selections.get? tagged.selection = some row)
    (hdocument : s.documents.get? tagged.document = some document)
    (hfield : row.type?.bind s.schema.fields.get? = some field)
    (h : s.discoverLists config = .ok (s', [])) :
    ∃ l ∈ s'.lists.rows, l.place = (tagged.selection, tagged.document) ∧
      l.connection = !field.type.isList := by
  obtain ⟨outcomes, ho, h⟩ := bind_eq_ok.mp h
  obtain ⟨rfl, hfound⟩ := Prod.mk.inj (Except.ok.inj h)
  have fine := (List.append_eq_nil_iff.mp hfound).1
  obtain ⟨outcome, hm, hout⟩ := exists_mem_of_mapM ho ht
  cases outcome with
  | unknown => exact absurd hout (listOutcome_ne_unknown hrow hdocument hfield)
  | problem d => cases List.filterMap_eq_nil_iff.mp fine _ hm
  | found l location =>
    obtain ⟨row', _, field', list⟩ := listOutcome_found hout
    obtain rfl : row = row' := Option.some.inj (hrow.symm.trans list.selected)
    obtain rfl : field = field' := Option.some.inj (hfield.symm.trans list.declared)
    refine ⟨l, ?_, Prod.ext list.listField list.document, list.connection⟩
    rw [rows_foldl_push]
    exact List.mem_append_right _ (List.mem_filterMap.mpr ⟨_, hm, rfl⟩)

/-! ## One paginated field per document -/

theorem mem_taggedFields_iff {tagged : Tagged} : tagged ∈ s.taggedFields ↔
    ∃ q ∈ s.placements.rows, (∃ row, s.selections.get? q.child = some row ∧ row.kind = .field) ∧
      (∃ u ∈ (s.directives .selection).uses.rows, u.owner = q.child ∧ isListTag u.name) ∧
      tagged = ⟨q.child, q.document, q.position⟩ := by
  rw [taggedFields, mem_sortBy_iff, mem_distinct_iff, List.mem_filterMap]
  constructor
  · rintro ⟨q, hq, h⟩
    split at h
    · next row hrow =>
      simp only [Option.ite_none_right_eq_some, Bool.and_eq_true, decide_eq_true_eq,
        List.any_eq_true, Option.some.injEq] at h
      obtain ⟨⟨hk, u, hu, howner, htag⟩, rfl⟩ := h
      exact ⟨q, hq, ⟨row, hrow, hk⟩, ⟨u, hu, howner, htag⟩, rfl⟩
    · cases h
  · rintro ⟨q, hq, ⟨row, hrow, hk⟩, ⟨u, hu, howner, htag⟩, rfl⟩
    refine ⟨q, hq, ?_⟩
    simp only [hrow, Option.ite_none_right_eq_some, Bool.and_eq_true, decide_eq_true_eq,
      List.any_eq_true, and_true]
    exact ⟨hk, u, hu, howner, htag⟩

theorem nodup_taggedFields (s : Store) : s.taggedFields.Nodup :=
  (sortBy_perm _ _).nodup_iff.mpr (distinct_nodup _)

/-- The placed selections that are paginated, once for each tag. -/
def paginatedUses (s : Store) : List (Use × Position) :=
  (s.directives .selection).uses.rows.flatMap fun d =>
    if d.name == Framework.paginateTag then (s.uses.filter (·.id = d.owner)).map (·, d.position)
    else []

theorem exists_mem_paginatedUses (hs : s.Closed) {q : Placement} (hq : q ∈ s.placements.rows)
    (tagged : s.hasDirective q.child Framework.paginateTag) :
    ∃ u ∈ s.paginatedUses, u.1.documentId = q.document ∧ u.1.id = q.child ∧
      u.1.position = q.position := by
  obtain ⟨_, hchild, hdocument⟩ := hs.placements q hq
  obtain ⟨row, hrow⟩ := contains_iff.mp hchild
  obtain ⟨document, hd⟩ := contains_iff.mp hdocument
  obtain ⟨use, huse, hname⟩ := List.any_eq_true.mp tagged
  simp only [Bool.and_eq_true, decide_eq_true_eq, beq_iff_eq] at hname
  refine ⟨(⟨q.child, row, q.document, document, q.parent?, q.position⟩, use.position),
    List.mem_flatMap.mpr ⟨use, huse, ?_⟩, rfl, rfl, rfl⟩
  rw [if_pos (by simp [hname.2])]
  refine List.mem_map_of_mem (List.mem_filter.mpr ⟨?_, by simp [hname.1]⟩)
  exact List.mem_filterMap.mpr ⟨q, hq, by simp only [hrow, hd]⟩

theorem eq_of_singlePaginate (hs : s.Closed)
    (h : Rule.singlePaginate.run config s = .ok (s', [])) {q q' : Placement}
    (hq : q ∈ s.placements.rows) (hq' : q' ∈ s.placements.rows)
    (tagged : s.hasDirective q.child Framework.paginateTag)
    (tagged' : s.hasDirective q'.child Framework.paginateTag)
    (same : q.document = q'.document) : q.child = q'.child ∧ q.position = q'.position := by
  obtain ⟨u, hu, hdocument, hid, hposition⟩ := exists_mem_paginatedUses hs hq tagged
  obtain ⟨u', hu', hdocument', hid', hposition'⟩ := exists_mem_paginatedUses hs hq' tagged'
  obtain ⟨found, hcheck, h⟩ := bind_eq_ok.mp h
  obtain ⟨_, rfl⟩ := Prod.mk.inj (Except.ok.inj h)
  have few := List.filter_eq_nil_iff.mp (eq_nil_of_mapM_eq_nil hcheck)
    (s.paginatedUses.filter (·.1.documentId = q.document)) (List.mem_map.mpr ⟨q.document, ?_, rfl⟩)
  · simp only [gt_iff_lt, decide_eq_true_eq, Nat.not_lt] at few
    have one : u = u' := eq_of_length_le_one few
      (List.mem_filter.mpr ⟨hu, by simp [hdocument]⟩)
      (List.mem_filter.mpr ⟨hu', by simp [hdocument', same]⟩)
    rw [← hid, ← hposition, one]
    exact ⟨hid', hposition'⟩
  · rw [mem_sortBy_iff, mem_distinct_iff]
    exact List.mem_map.mpr ⟨u, hu, hdocument⟩

end Store

namespace Project

open Store ListField

variable {p : Project} {s₀ s : Store}

/-- After a clean validation no two paginated lists share a document. -/
theorem analyse_apart (prepared : p.prepare = .ok s₀) (analysed : p.analyse s₀ = .ok (s, [])) :
    (s.lists.rows.filter (·.paginate ≠ .unpaged)).Pairwise fun l k => l.document ≠ k.document := by
  have closed := (analyse_ready (prepare_ready prepared).1 (prepare_ready prepared).2 analysed).closed
  have paged := analyse_paged prepared analysed
  obtain ⟨_, _, s₁, s₂, listed, swept, ruled⟩ := analyse_clean analysed
  have sublist := discoverLists_sublist (lists_of_prepare prepared) listed
  have relists := (discoverLists_relists listed).trans (validate_repages swept ruled).1.1
  generalize (s₀.loadSources.1.retypeScalars
    p.config.runtimeScalars).1.discoverComponentFields.1 = u at *
  obtain ⟨rfl, clean⟩ := rules_clean ruled
  obtain ⟨_, single⟩ := clean Rule.singlePaginate (by simp [Rule.rules])
  -- Two tagged fields of a document that are paginated are one.
  have fields : u.taggedFields.Pairwise fun t t' =>
      s.hasDirective t.selection Framework.paginateTag →
      s.hasDirective t'.selection Framework.paginateTag → t.document ≠ t'.document := by
    refine (nodup_taggedFields u).imp_of_mem fun {t t'} ht ht' hne tagged tagged' same => hne ?_
    obtain ⟨q, hq, _, _, rfl⟩ := mem_taggedFields_iff.mp ht
    obtain ⟨q', hq', _, _, rfl⟩ := mem_taggedFields_iff.mp ht'
    have placements : u.placements = s.placements := by rw [show s = _ from relists]
    obtain ⟨hchild, hposition⟩ := eq_of_singlePaginate closed single (placements ▸ hq)
      (placements ▸ hq') tagged tagged' same
    rw [hchild, hposition, show q.document = q'.document from same]
  have lists : (s.lists.rows.map ListRow.place).Pairwise fun l k =>
      s.hasDirective l.1 Framework.paginateTag →
      s.hasDirective k.1 Framework.paginateTag → l.2 ≠ k.2 := by
    rw [sweeps_places swept]
    exact (List.pairwise_map.mpr fields).sublist sublist
  refine ((List.pairwise_map.mp lists).filter _).imp_of_mem fun {l k} hl hk apart => ?_
  obtain ⟨hl, lpaged⟩ := List.mem_filter.mp hl
  obtain ⟨hk, kpaged⟩ := List.mem_filter.mp hk
  exact apart (paged l hl (of_decide_eq_true lpaged)).1 (paged k hk (of_decide_eq_true kpaged)).1

/-- After a clean validation every paginated field that the schema knows has a list, which pages
with the arguments of the field. -/
theorem analyse_listed (analysed : p.analyse s₀ = .ok (s, [])) (closed : s.Closed) {q : Placement}
    {id : String} {field : FieldRow} (paginates : s.Paginates q id field) :
    ∃ l ∈ s.lists.rows, l.place = (q.child, q.document) ∧ l.paginate ≠ .unpaged ∧
      l.pageArguments = s.schema.pageArguments id field := by
  obtain ⟨hq, ⟨row, hrow, hk, typed⟩, tagged, known⟩ := paginates
  obtain ⟨document, hdocument⟩ := contains_iff.mp (closed.placements q hq).2.2
  obtain ⟨use, huse, hname⟩ := List.any_eq_true.mp tagged
  simp only [Bool.and_eq_true, decide_eq_true_eq, beq_iff_eq] at hname
  obtain ⟨_, _, s₁, s₂, listed, swept, ruled⟩ := analyse_clean analysed
  have relists := discoverLists_relists listed
  have relists' := (validate_repages swept ruled).1.1
  generalize (s₀.loadSources.1.retypeScalars
    p.config.runtimeScalars).1.discoverComponentFields.1 = u at *
  obtain ⟨rfl, _⟩ := rules_clean ruled
  have before : u = { s with lists := u.lists } := (relists.trans relists').symm
  have between : s₁ = { s with lists := s₁.lists } := relists'.symm
  have found : (⟨q.child, q.document, q.position⟩ : Tagged) ∈ u.taggedFields := by
    rw [mem_taggedFields_iff, before]
    exact ⟨q, hq, ⟨row, hrow, hk⟩, ⟨use, huse, hname.1, by rw [hname.2]; rfl⟩, rfl⟩
  have row' : u.selections.get? q.child = some row := by rwa [before]
  have document' : u.documents.get? q.document = some document := by rwa [before]
  have known' : row.type?.bind u.schema.fields.get? = some field := by
    rw [typed, before]
    exact known
  obtain ⟨l, hl, place, connection⟩ :=
    exists_of_mem_taggedFields found row' document' known' listed
  obtain ⟨n, hn⟩ := mem_rows_iff.mp hl
  obtain ⟨all, _⟩ := foldlM_checkPaging s₁.lists.entries s₁.lists.ordered (.refl s₁)
    (fun e he => get?_of_mem he) (paginateArguments_of_sweeps swept)
  obtain ⟨l', hl', recorded⟩ := all (n, l) (mem_of_get? hn)
  have field' : l.listField = q.child := congrArg Prod.fst place
  obtain ⟨applied, paging, hpaging, rfl⟩ := recorded.paged (by rw [field', between]; exact tagged)
  have typed' : (s₁.selections.get? l.listField).bind (·.type?) = some id := by
    rw [field', between, show get? _ _ = _ from hrow]
    exact typed
  obtain ⟨paged, arguments⟩ := pageArguments_of_paging typed' connection hpaging
  refine ⟨_, mem_rows_of_get? hl', place, paged, ?_⟩
  rw [arguments, between]

/-- The field of a paginated list is paginated. -/
theorem analyse_paginates (prepared : p.prepare = .ok s₀) (analysed : p.analyse s₀ = .ok (s, []))
    {l : ListRow} (hl : l ∈ s.lists.rows) (paged : l.paginate ≠ .unpaged) :
    ∃ q id field, s.Paginates q id field ∧ l.place = (q.child, q.document) := by
  obtain ⟨tagged, _⟩ := analyse_paged prepared analysed l hl paged
  obtain ⟨_, _, s₁, s₂, listed, swept, ruled⟩ := analyse_clean analysed
  have relists := (discoverLists_relists listed).trans (validate_repages swept ruled).1.1
  have new := lists_of_prepare prepared
  generalize (s₀.loadSources.1.retypeScalars
    p.config.runtimeScalars).1.discoverComponentFields.1 = u at *
  obtain ⟨rfl, _⟩ := rules_clean ruled
  have before : u = { s with lists := u.lists } := relists.symm
  obtain ⟨l₁, hl₁, place⟩ := List.mem_map.mp (sweeps_places swept ▸ List.mem_map_of_mem hl)
  obtain ⟨t, ht, row, _, field, list⟩ := (mem_discoverLists listed hl₁).resolve_left
    (new ▸ List.not_mem_nil)
  have hrow := list.selected
  obtain ⟨q, hq, ⟨row', hrow', hk⟩, _, rfl⟩ := mem_taggedFields_iff.mp ht
  obtain rfl : row = row' := Option.some.inj (hrow.symm.trans hrow')
  obtain ⟨id, typed, known⟩ := Option.bind_eq_some_iff.mp list.declared
  rw [before] at hq hrow known
  have here : l.place = (q.child, q.document) :=
    place.symm.trans (Prod.ext list.listField list.document)
  refine ⟨q, id, field, ⟨hq, ⟨row, hrow, hk, typed⟩, ?_, known⟩, here⟩
  rwa [← show l.listField = q.child from congrArg Prod.fst here]

end Project

end GraphDoc
