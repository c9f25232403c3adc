import GraphDoc.Proofs.Components
import GraphDoc.Proofs.FragmentArgument.Frame

/-!
# Documents that compiling leaves alone

All documents share the tables of a store, and most stages go through whole tables. A document that
asks for nothing still comes out as it went in: no stage touches its row, its variables, its
directives or what is placed in it. `Store.Intact` says this for two stores, and there is one lemma
for each part of the compilation.
-/

set_option autoImplicit false

namespace GraphDoc

open Table

namespace Store

variable {s s' s'' : Store} {G G' : Int → Prop} {d : Int}

/-! ## Documents that print the same -/

/-- Whatever is printed of document `d` is the same in both stores. -/
structure Intact (d : Int) (s t : Store) : Prop where
  row : t.documents.get? d = s.documents.get? d
  declarations : t.variablesOf d = s.variablesOf d
  defaults : ∀ v ∈ s.variablesOf d, ∀ id, v.2.default? = some id → t.read id = s.read id
  nodes : t.nodes .document d = s.nodes .document d
  tree : t.selectionTree d = s.selectionTree d

theorem Intact.trans (h : Intact d s s') (h' : Intact d s' s'') : Intact d s s'' where
  row := h'.row.trans h.row
  declarations := h'.declarations.trans h.declarations
  defaults v hv id hid :=
    (h'.defaults v (h.declarations ▸ hv) id hid).trans (h.defaults v hv id hid)
  nodes := h'.nodes.trans h.nodes
  tree := h'.tree.trans h.tree

/-- What a variable is declared as. -/
def variableText (s : Store) (v : VariableRow) : String :=
  "$" ++ v.name ++ ": " ++ v.type.text ++
    match v.default? with
    | none => ""
    | some id => " = " ++ (s.read id).print

theorem Closed.contains_default (hs : s.Closed) {v : Int × VariableRow} (hv : v ∈ s.variablesOf d)
    {id : Int} (hid : v.2.default? = some id) : s.values.contains id := by
  have hrow := (mem_variablesOf.mp (show (v.1, v.2) ∈ s.variablesOf d from hv)).1
  exact (hs.declarations v.2 (mem_rows_of_get? hrow)).2 id hid

theorem Sound.printVariable_eq (hs : s.Sound G) {v : Int × VariableRow}
    (hv : v ∈ s.variablesOf d) : s.printVariable v.2 = .ok (s.variableText v.2) := by
  rw [printVariable, variableText]
  cases hdefault : v.2.default? with
  | none =>
    rw [String.append_empty]
    rfl
  | some id =>
    simp only [hs.value_eq_read (hs.closed.contains_default hv hdefault)]
    simp only [String.append_assoc]
    rfl

/-- A document that is there can be printed. -/
theorem Sound.printDocument_ok (hs : s.Sound G) {row : DocumentRow}
    (hrow : s.documents.get? d = some row) : ∃ text, s.printDocument d = .ok text := by
  obtain ⟨tree, htree⟩ := hs.selectionTree_ok d
  have head : ∃ text, s.printHead d row = .ok text := by
    unfold printHead
    rw [mapM_eq_ok fun v hv => hs.printVariable_eq hv]
    cases row.kind <;> exact ⟨_, rfl⟩
  obtain ⟨text, hhead⟩ := head
  simp only [printDocument, hrow, hhead, hs.directiveNodes_eq, htree]
  exact ⟨_, rfl⟩

theorem Intact.printDocument (h : Intact d s s') (hs : s.Sound G) (hs' : s'.Sound G') :
    s'.printDocument d = s.printDocument d := by
  have texts : (s'.variablesOf d).mapM (fun v => s'.printVariable v.2) =
      (s.variablesOf d).mapM fun v => s.printVariable v.2 := by
    rw [mapM_eq_ok fun v hv => hs.printVariable_eq hv,
      mapM_eq_ok fun v hv => hs'.printVariable_eq hv, h.declarations]
    refine congrArg Except.ok (List.map_congr_left fun v hv => ?_)
    rw [variableText, variableText]
    cases hdefault : v.2.default? with
    | none => rfl
    | some id => simp only [h.defaults v hv id hdefault]
  have head : ∀ row, s'.printHead d row = s.printHead d row := fun row => by
    rw [printHead, printHead, texts]
  simp only [Store.printDocument, h.row, head, hs.directiveNodes_eq, hs'.directiveNodes_eq, h.nodes,
    h.tree]

/-- The trees are the same if the same is placed in them and each selection stayed as it was. -/
theorem selectionTree_of_sameOn (hs : s.Sound G) (hs' : s'.Sound G')
    (placed : s'.placements.rows.filter (·.document = d) =
      s.placements.rows.filter (·.document = d))
    (on : ∀ q ∈ s.placements.rows, q.document = d → SameOn s s' q.child) :
    s'.selectionTree d = s.selectionTree d := by
  have same : s'.placed d = s.placed d := by
    simp only [Store.placed, placed]
    refine List.filterMap_congr fun q hq => ?_
    obtain ⟨hm, hd⟩ := List.mem_filter.mp ((mem_sortBy_iff ..).mp hq)
    rw [(on q hm (of_decide_eq_true hd)).row]
  refine Translates.selectionTree_eq hs hs' ⟨⟨id, ?_, fun e _ => ⟨?_, rfl, rfl⟩⟩,
    fun _ _ _ _ _ _ h => h, fun e he => ?_, fun e he => ?_⟩
  · rw [same, List.map_id]
  · exact Option.map_id'.symm
  · obtain ⟨hm, hd, _⟩ := mem_placed he
    rw [(on e.1 hm hd).arguments, List.map_id']
  · obtain ⟨hm, hd, _⟩ := mem_placed he
    exact (on e.1 hm hd).nodes

/-! ## Runtime scalars -/

theorem variablesOf_retypeScalars {scalars : NameMap String}
    (other : ∀ v ∈ s.variablesOf d, ∀ scalar ∈ scalars, v.2.type.name ≠ scalar.1) :
    (s.retypeScalars scalars).1.variablesOf d = s.variablesOf d := by
  refine List.foldlRecOn (motive := fun outcome : Store × Nat =>
    outcome.1.variablesOf d = s.variablesOf d) scalars _ rfl fun outcome ho scalar hscalar => ?_
  refine List.foldlRecOn (motive := fun t : Store => t.variablesOf d = s.variablesOf d) _ _ ho
    fun t ht entry hentry => ?_
  obtain ⟨hm, hname⟩ := List.mem_filter.mp hentry
  -- The variable that gets another type is none of the document's.
  have outside : ∀ e ∈ t.variablesOf d, e.1 ≠ entry.1 := by
    rintro e he heq
    have he := ho.symm ▸ ht ▸ he
    have hrow := (mem_variablesOf.mp (show (e.1, e.2) ∈ outcome.1.variablesOf d from he)).1
    rw [heq, get?_of_mem (show (entry.1, entry.2) ∈ _ from hm)] at hrow
    refine other e (ho ▸ he) scalar hscalar ?_
    rw [← Option.some.inj hrow]
    exact beq_iff_eq.mp hname
  refine Eq.trans (filter_entries_modify t.declarations entry.1 _
    (fun v => decide (v.document = d)) fun _ => rfl) (Eq.trans ?_ ht)
  exact (List.map_congr_left (g := id) fun e he => if_neg (outside e he)).trans (List.map_id _)

/-! ## Component fields -/

open ComponentField

section

variable {ds : List Declaration}

theorem foldl_registerComponent_rest (s : Store) (ds : List Declaration) :
    ds.foldl registerComponent s = { s with
      documents := (ds.foldl registerComponent s).documents
      selections := (ds.foldl registerComponent s).selections
      componentFields := (ds.foldl registerComponent s).componentFields
      schema := (ds.foldl registerComponent s).schema } := by
  refine List.foldlRecOn (motive := fun t : Store => t = { s with
    documents := t.documents, selections := t.selections, componentFields := t.componentFields
    schema := t.schema }) ds _ rfl fun t ht c _ => ?_
  rw [registerComponent]
  split
  · rw [ht]
  · rw [ht]
    rfl

theorem get?_documents_foldl {id : Int} (h : ∀ c ∈ ds, c.document ≠ id) :
    (ds.foldl registerComponent s).documents.get? id = s.documents.get? id :=
  List.foldlRecOn (motive := fun t : Store => t.documents.get? id = s.documents.get? id) ds _ rfl
    fun t ht c hc => (get?_registerComponent_of_ne t (h c hc)).trans ht

theorem get?_selections_foldl {x : Int} {row : SelectionRow}
    (hrow : s.selections.get? x = some row)
    (kept : row.kind = .fragment → ∀ c ∈ ds, c.name ≠ row.name) :
    (ds.foldl registerComponent s).selections.get? x = some row := by
  refine List.foldlRecOn (motive := fun t : Store => t.selections.get? x = some row) ds _ hrow
    fun t ht c hc => ?_
  rw [registerComponent]
  split
  · exact ht
  · refine (get?_mapRows ..).trans ?_
    rw [ht, Option.map_some, if_neg]
    rw [Bool.and_eq_true, not_and, decide_eq_true_eq, beq_iff_eq]
    exact fun hk heq => kept hk c hc heq.symm

theorem name_foldl {id : Int} {row : DocumentRow}
    (h : (ds.foldl registerComponent s).documents.get? id = some row) :
    ∃ row₀, s.documents.get? id = some row₀ ∧ row.kind = row₀.kind ∧ (row.name = row₀.name ∨
      ∃ c ∈ ds, row.name = Framework.componentFragment c.condition c.field) := by
  refine List.foldlRecOn (motive := fun t : Store => ∀ row, t.documents.get? id = some row →
    ∃ row₀, s.documents.get? id = some row₀ ∧ row.kind = row₀.kind ∧ (row.name = row₀.name ∨
      ∃ c ∈ ds, row.name = Framework.componentFragment c.condition c.field)) ds _
    (fun row hrow => ⟨row, hrow, rfl, .inl rfl⟩) (fun t ht c hc row hrow => ?_) row h
  rw [registerComponent] at hrow
  split at hrow
  · exact ht row hrow
  · replace hrow := (get?_modify ..).symm.trans hrow
    split at hrow
    · obtain ⟨row', hrow', rfl⟩ := Option.map_eq_some_iff.mp hrow
      obtain ⟨row₀, hrow₀, hk, _⟩ := ht row' hrow'
      exact ⟨row₀, hrow₀, hk, .inr ⟨c, hc, rfl⟩⟩
    · exact ht row hrow

end

/-! ## Pagination -/

/-- The directives of a document without pages stay. -/
theorem Pages.documentNodes {ls : List ListRow} (h : Pages ls s s') (hs : s.Sound G)
    (hs' : s'.Sound G') (outside : ∀ l ∈ ls, l.document ≠ d) :
    s'.nodes .document d = s.nodes .document d := by
  have uses : (s'.directives .document).usesOf d = (s.directives .document).usesOf d :=
    h.uses.filter_entries (q := fun u => decide (u.owner = d)) fun u ⟨l, hl, howner⟩ =>
      decide_eq_false (howner ▸ outside l hl)
  rw [nodes, nodes, uses]
  refine List.map_congr_left fun use huse => ?_
  have old : use.1 ≤ s.documentDirectives.uses.issued := le_issued_of_contains
    (contains_of_get? (get?_of_mem (List.mem_filter.mp huse).1))
  have arguments : (s'.directives .document).argumentsOf use.1 =
      (s.directives .document).argumentsOf use.1 :=
    h.directiveArguments.filter_entries (q := fun a => decide (a.owner = use.1)) fun a ha =>
      decide_eq_false (by omega)
  rw [nodeOf, nodeOf, arguments]
  congr 1
  refine List.map_congr_left fun a ha => ?_
  have hrow := mem_rows_of_get? (get?_of_mem (List.mem_filter.mp ha).1)
  rw [h.read hs hs' ((hs.closed.directives .document).arguments a.2 hrow).2]

/-! ## Documents that ask for nothing -/

/-- The names of the fragments. -/
def fragmentNames (s : Store) : List String :=
  (s.documents.rows.filter (·.kind = .fragment)).map (·.name)

theorem mem_fragmentNames {id : Int} {row : DocumentRow} (hrow : s.documents.get? id = some row)
    (hk : row.kind = .fragment) : row.name ∈ s.fragmentNames :=
  List.mem_map_of_mem (List.mem_filter.mpr ⟨mem_rows_of_get? hrow, decide_eq_true hk⟩)

theorem eq_of_name_eq (distinct : s.fragmentNames.Nodup) {id id' : Int} {row row' : DocumentRow}
    (hrow : s.documents.get? id = some row) (hk : row.kind = .fragment)
    (hrow' : s.documents.get? id' = some row') (hk' : row'.kind = .fragment)
    (hname : row'.name = row.name) : id' = id := by
  have entries : s.fragmentNames =
      (s.documents.entries.filter fun e => e.2.kind = .fragment).map (·.2.name) := by
    rw [fragmentNames, rows, List.filter_map, List.map_map]
    rfl
  rw [entries] at distinct
  exact congrArg Prod.fst (List.inj_on_of_nodup_map distinct
    (List.mem_filter.mpr ⟨mem_of_get? hrow', decide_eq_true hk'⟩)
    (List.mem_filter.mpr ⟨mem_of_get? hrow, decide_eq_true hk⟩) hname)

/-- A document that declares no argument and no component field and has no pages. -/
structure Unadorned (l : Store) (d : Int) : Prop where
  tags : ∀ u ∈ (l.directives .document).usesOf d,
    u.2.name ≠ Framework.argumentsTag ∧ u.2.name ≠ Framework.componentFieldTag
  unpaged : ∀ q ∈ l.placements.rows, q.document = d → ∀ row ∈ l.selections.get? q.child,
    row.kind = .field → l.hasDirective q.child Framework.paginateTag = false

instance (l : Store) (d : Int) : Decidable (Unadorned l d) :=
  decidable_of_iff (_ ∧ _) ⟨fun h => ⟨h.1, h.2⟩, fun h => ⟨h.1, h.2⟩⟩

theorem Unadorned.document_ne (h : Unadorned s d) {c : Declaration}
    (hc : c ∈ s.componentDeclarations) : c.document ≠ d := by
  rintro rfl
  obtain ⟨_, _, _, _, _, u, hu, htag, _⟩ := mem_componentDeclarations_iff hc
  exact (h.tags u hu).2 htag

/-- A document of `l` that asks for nothing: it is unadorned, has no variable of the `scalars` and
selects no component field, and its spreads are of `generated` fragments or of unadorned ones. -/
structure Undemanding (scalars : NameMap String) (generated : List String) (l : Store) (d : Int) :
    Prop extends Unadorned l d where
  types : ∀ v ∈ l.variablesOf d, ∀ scalar ∈ scalars, v.2.type.name ≠ scalar.1
  fields : ∀ q ∈ l.placements.rows, q.document = d → ∀ row ∈ l.selections.get? q.child,
    row.kind = .field → ∀ c ∈ l.componentDeclarations, row.type? ≠ some c.fieldId
  spreads : ∀ q ∈ l.placements.rows, q.document = d → ∀ row ∈ l.selections.get? q.child,
    row.kind = .fragment → row.name ∈ generated ∨
      ∃ e ∈ l.documents.entries, e.2.kind = .fragment ∧ e.2.name = row.name ∧ Unadorned l e.1

set_option synthInstance.maxSize 256 in
instance (scalars : NameMap String) (generated : List String) (l : Store) (d : Int) :
    Decidable (Undemanding scalars generated l d) :=
  decidable_of_iff (Unadorned l d ∧ _ ∧ _ ∧ _)
    ⟨fun h => ⟨h.1, h.2.1, h.2.2.1, h.2.2.2⟩, fun h => ⟨h.1, h.2, h.3, h.4⟩⟩

end Store

namespace Project

open Store

variable {p : Project} {s₀ s : Store} {d : Int}

/-! ## The stages -/

theorem analyse_rows (prepared : p.prepare = .ok s₀) (analysed : p.analyse s₀ = .ok (s, []))
    (distinct : s₀.loadSources.1.fragmentNames.Nodup)
    (apart : ∀ name ∈ s₀.loadSources.1.fragmentNames, name ∉ Rule.generatedFragments s)
    (plain : Undemanding p.config.runtimeScalars (Rule.generatedFragments s) s₀.loadSources.1 d)
    {q : Placement} (hq : q ∈ s₀.loadSources.1.placements.rows) (hd : q.document = d) :
    s.selections.get? q.child = s₀.loadSources.1.selections.get? q.child := by
  have closed := (loadSources_ready (prepare_ready prepared).1).ready.closed
  obtain ⟨ds, declared, relists, _⟩ := analyse_discovers prepared analysed
  have retypes := retypeScalars_retypes s₀.loadSources.1 p.config.runtimeScalars
  generalize s₀.loadSources.1 = l at *
  obtain ⟨row, hrow⟩ := contains_iff.mp (closed.placements q hq).2.1
  rw [hrow, show s = _ from relists]
  refine get?_selections_foldl (by rw [retypes]; exact hrow) fun hk c hc hname => ?_
  have hc := (declared c).mp hc
  obtain ⟨fragment, _, hfragment, hkf, hnamef, _⟩ := mem_componentDeclarations_iff hc
  rcases plain.spreads q hq hd row hrow hk with hm | ⟨e, he, hke, hnamee, unadorned⟩
  · refine apart _ (mem_fragmentNames hfragment hkf) ?_
    rwa [hnamef, hname]
  · exact unadorned.document_ne hc (eq_of_name_eq distinct (get?_of_mem he) hke hfragment hkf
      (hnamef.trans (hname.trans hnamee.symm)))

theorem analyse_intact (prepared : p.prepare = .ok s₀) (analysed : p.analyse s₀ = .ok (s, []))
    (distinct : s₀.loadSources.1.fragmentNames.Nodup)
    (apart : ∀ name ∈ s₀.loadSources.1.fragmentNames, name ∉ Rule.generatedFragments s)
    (plain : Undemanding p.config.runtimeScalars (Rule.generatedFragments s) s₀.loadSources.1 d) :
    Intact d s₀.loadSources.1 s := by
  have ready := (loadSources_ready (prepare_ready prepared).1).ready
  have sound : s.Ready NoBorrowers := analyse_ready (prepare_ready prepared).1
    (prepare_ready prepared).2 analysed
  have rows := fun q hq hd => analyse_rows prepared analysed distinct apart plain (q := q) hq hd
  have agrees := (analyse_agrees prepared analysed).1
  obtain ⟨ds, declared, relists, _⟩ := analyse_discovers prepared analysed
  have retypes := retypeScalars_retypes s₀.loadSources.1 p.config.runtimeScalars
  have values := retypeScalars_values s₀.loadSources.1 p.config.runtimeScalars
  have retyped := variablesOf_retypeScalars plain.types
  generalize s₀.loadSources.1 = l at *
  generalize (l.retypeScalars p.config.runtimeScalars).1 = t at *
  have rest := foldl_registerComponent_rest t ds
  have documents := get?_documents_foldl (s := t) fun c hc =>
    plain.document_ne ((declared c).mp hc)
  generalize ds.foldl registerComponent t = u at *
  have links : s.valueLinks = l.valueLinks := by
    rw [show s = _ from relists, rest, retypes]
  have grown : Table.Grows (fun _ => True) l.values s.values := by
    rwa [show s = _ from relists, rest]
  have reads : ∀ v, l.values.contains v → s.read v = l.read v := fun v hv =>
    ready.toSound.read_grows sound.toSound grown links hv
  refine ⟨?_, ?_, fun v hv id hid => reads id (ready.closed.contains_default hv hid), ?_, ?_⟩
  · rw [show s = _ from relists]
    exact documents.trans (by rw [retypes])
  · rw [← retyped, show s = _ from relists, rest]
    rfl
  · refine ready.closed.nodes_of_reads ?_ reads d
    rw [show s = _ from relists, rest, retypes]
    rfl
  · refine selectionTree_of_sameOn ready.toSound sound.toSound (by rw [agrees.placements])
      fun q hq hd => ?_
    have like := agrees.resembles q.child (ready.closed.placements q hq).2.1
    refine ⟨rows q hq hd, ?_, like.nodes⟩
    rw [like.arguments, List.map_id']

section

variable (ready : s.Ready NoBorrowers) (paged : s.Paged) (listed : s.ListsFields)
  (unpaged : ∀ q ∈ s.placements.rows, q.document = d → ∀ row ∈ s.selections.get? q.child,
    row.kind = .field → s.hasDirective q.child Framework.paginateTag = false)
include ready paged listed unpaged

omit ready in
theorem listField_ne_of_unpaged {l : ListRow} (hl : l ∈ s.lists.rows)
    (hpaged : l.paginate ≠ .unpaged) {q : Placement} (hq : q ∈ s.placements.rows)
    (hd : q.document = d) : l.listField ≠ q.child := by
  intro hfield
  have tagged := (paged l hl hpaged).1
  obtain ⟨row, hrow, hk⟩ := listed l hl
  rw [hfield] at tagged hrow
  rw [unpaged q hq hd row hrow hk] at tagged
  cases tagged

theorem document_ne_of_unpaged :
    ∀ l ∈ s.lists.rows.filter (·.paginate ≠ .unpaged), l.document ≠ d := by
  intro l hl hdocument
  obtain ⟨hl, hpaged⟩ := List.mem_filter.mp hl
  obtain ⟨q, hq, hchild, hd⟩ := (ready.roots hl).placed
  exact listField_ne_of_unpaged paged listed unpaged hl (of_decide_eq_true hpaged) hq
    (hd.trans hdocument) hchild.symm

theorem variablesOf_rewrite : (p.rewrite s).variablesOf d = s.variablesOf d := by
  rw [variablesOf, declarations_rewrite ready]
  exact (preparePagination_pages p.config s).declarations d
    (document_ne_of_unpaged ready paged listed unpaged)

theorem rewrite_sameOn (fields : ∀ q ∈ s.placements.rows, q.document = d → ∀ row,
      s.selections.get? q.child = some row → row.kind = .field → ∀ e ∈ s.componentFields.rows,
        row.type? ≠ some (Schema.idOf e.2.type e.2.field))
    {q : Placement} (hq : q ∈ s.placements.rows) (hd : q.document = d) :
    SameOn s (p.rewrite s) q.child := by
  obtain ⟨row, nodes, arguments⟩ := generateListOperations_on ready p.config
    (ready.closed.placements q hq).2.1
  have same := sameOn_rewrite ready (p := p) (x := q.child) fun e he hex => by
    obtain ⟨r, document, hr, hm, hk, htype⟩ := mem_componentSelections_iff.mp he
    rw [hex] at hr
    rw [(generated_grows ready).2.2.2] at hm
    exact fields q hq hd r (row.symm.trans hr) hk _ hm htype
  exact ⟨same.row.trans row, same.arguments.trans (arguments fun l hl hpaged =>
    listField_ne_of_unpaged paged listed unpaged hl hpaged hq hd), same.nodes.trans nodes⟩

omit paged listed unpaged in
theorem rewrite_placements (here : s.documents.contains d) :
    (p.rewrite s).placements.rows.filter (·.document = d) =
      s.placements.rows.filter (·.document = d) := by
  have old : d ≤ s.documents.issued := le_issued_of_contains here
  rw [(spreads_rewrite ready).rest]
  refine (generated_grows ready).2.1.filter_rows (q := fun q => decide (q.document = d))
    fun q hq => decide_eq_false ?_
  have := hq.document
  omega

theorem rewrite_intact (here : s.documents.contains d)
    (fields : ∀ q ∈ s.placements.rows, q.document = d → ∀ row,
      s.selections.get? q.child = some row → row.kind = .field → ∀ e ∈ s.componentFields.rows,
        row.type? ≠ some (Schema.idOf e.2.type e.2.field)) :
    Intact d s (p.rewrite s) where
  row := by
    obtain ⟨row, hrow⟩ := contains_iff.mp here
    rw [(spreads_rewrite ready).rest, hrow]
    exact (generated_grows ready).1.get?_of_get? hrow
  declarations := variablesOf_rewrite ready paged listed unpaged
  defaults _ hv _ hid := read_rewrite ready (ready.closed.contains_default hv hid)
  nodes := by
    obtain ⟨_, directives, values, links⟩ := tables_rewrite (p := p) ready
    have same : (p.rewrite s).directives .document =
        (s.preparePagination p.config).1.directives .document := directives
    exact (nodes_of_tables same values links d).trans
      ((preparePagination_pages p.config s).documentNodes ready.toSound
        (preparePagination_paging p.config ready).ready.toSound
        (document_ne_of_unpaged ready paged listed unpaged))
  tree := selectionTree_of_sameOn ready.toSound (rewrite_ready ready).toSound
    (rewrite_placements ready here) fun _ => rewrite_sameOn ready paged listed unpaged fields

end

end Project

namespace Inlining

open Store

variable {s : Store} {G : Int → Prop} {d : Int}

theorem Handed.intact (hs : Handed G s) (here : s.documents.contains d)
    (settled : ∀ e ∈ spreads s d, s.Settled e.2) : Intact d s (finished s).store := by
  have advances := hs.ran.held.advances
  obtain ⟨row, hrow⟩ := contains_iff.mp here
  refine ⟨?_, advances.variablesOf d, fun v hv id hid => ?_, advances.nodes d here, ?_⟩
  · rw [advances.documents.get?_of_get? hrow, hrow]
  · have howns : s.owns (.default v.1) = some id := by
      rw [owns, (mem_variablesOf.mp (show (v.1, v.2) ∈ s.variablesOf d from hv)).1]
      exact hid
    exact (advances.rooted id (hs.sound.rooted howns trivial)).2
  · exact (hs.unmodified here (fun e he _ _ _ => settled e he) (fuelFor s)).tree

end Inlining

namespace Project

open Store

variable {p : Project} {s₀ s l : Store} {d : Int}

/-! ## Fragments without arguments -/

theorem componentFragment_ne_empty (type field : String) :
    Framework.componentFragment type field ≠ "" := by
  unfold Framework.componentFragment
  simp [String.append_eq_empty_iff]

theorem variablesOf_eq_nil (prepared : p.prepare = .ok s₀) {row : DocumentRow}
    (hrow : s₀.loadSources.1.documents.get? d = some row) (hk : row.kind = .fragment)
    (unadorned : Unadorned s₀.loadSources.1 d) : s₀.loadSources.1.variablesOf d = [] := by
  obtain ⟨e, _, definition, hm, rfl, hnodes, hdeclared⟩ :=
    exists_definition (prepare_ready prepared).1.closed (by rw [prepare_rest prepared]; rfl) hrow
  have names := map_name_directiveNodes hnodes
  cases definition with
  | operation o =>
    have := isOperation_of_mem_definitions hm
    rw [show o.kind = .fragment from hk] at this
    cases this
  | fragment f =>
    have untagged : f.directives.filter (·.name == Framework.argumentsTag) = [] := by
      refine List.filter_eq_nil_iff.mpr fun directive hdirective htag => ?_
      have hname : directive.name ∈
          ((s₀.loadSources.1.directives .document).usesOf d).map (·.2.name) := by
        rw [← names]
        exact List.mem_map_of_mem (List.mem_map_of_mem hdirective)
      obtain ⟨u, hu, heq⟩ := List.mem_map.mp hname
      exact (unadorned.tags u hu).1 (heq.trans (beq_iff_eq.mp htag))
    refine eq_nil_of_mapM_eq_nil (hdeclared.trans (congrArg Except.ok ?_))
    rw [Grammar.Definition.outline, Grammar.Fragment.declared, untagged]
    rfl

theorem settled_rewrite (ready : s.Ready NoBorrowers) {name : String}
    (bare : ∀ id row, s.documents.get? id = some row → row.kind = .fragment → row.name = name →
      (p.rewrite s).variablesOf id = []) : (p.rewrite s).Settled name := by
  intro id row found
  obtain ⟨hrow, hname, hk⟩ := findDocument_eq_some found
  rw [(spreads_rewrite ready).rest] at hrow
  cases hc : s.documents.contains id with
  | true =>
    obtain ⟨row', hrow'⟩ := contains_iff.mp hc
    obtain rfl := Option.some.inj (((generated_grows ready).1.get?_of_get? hrow').symm.trans hrow)
    exact bare id row' hrow' hk hname
  | false =>
    -- Generated fragments declare nothing.
    refine List.eq_nil_iff_forall_not_mem.mpr ?_
    rintro ⟨n, v⟩ hm
    obtain ⟨hv, rfl⟩ := mem_variablesOf.mp hm
    have paging := preparePagination_paging p.config ready
    rw [declarations_rewrite ready] at hv
    have declared := (paging.ready.closed.declarations v (mem_rows_of_get? hv)).1
    rw [paging.rest] at declared
    exact Bool.false_ne_true (hc.symm.trans declared)

theorem analyse_name (prepared : p.prepare = .ok s₀) (analysed : p.analyse s₀ = .ok (s, []))
    {row : DocumentRow} (hrow : s.documents.get? d = some row) :
    ∃ row₀, s₀.loadSources.1.documents.get? d = some row₀ ∧ row.kind = row₀.kind ∧
      (row.name = row₀.name ∨ ∃ c ∈ s₀.loadSources.1.componentDeclarations,
        row.name = Framework.componentFragment c.condition c.field) := by
  obtain ⟨ds, declared, relists, _⟩ := analyse_discovers prepared analysed
  rw [show s = _ from relists] at hrow
  obtain ⟨row₀, hrow₀, hk, hname⟩ := name_foldl hrow
  rw [retypeScalars_retypes s₀.loadSources.1 p.config.runtimeScalars] at hrow₀
  exact ⟨row₀, hrow₀, hk, hname.imp_right fun ⟨c, hc, heq⟩ => ⟨c, (declared c).mp hc, heq⟩⟩

theorem analyse_document (prepared : p.prepare = .ok s₀) (analysed : p.analyse s₀ = .ok (s, []))
    (unadorned : Unadorned s₀.loadSources.1 d) :
    s.documents.get? d = s₀.loadSources.1.documents.get? d := by
  obtain ⟨ds, declared, relists, _⟩ := analyse_discovers prepared analysed
  rw [show s = _ from relists]
  refine (get?_documents_foldl fun c hc => unadorned.document_ne ((declared c).mp hc)).trans ?_
  rw [retypeScalars_retypes s₀.loadSources.1 p.config.runtimeScalars]

section

variable (prepared : p.prepare = .ok s₀) (analysed : p.analyse s₀ = .ok (s, []))
include prepared analysed

theorem analyse_untagged (unadorned : Unadorned s₀.loadSources.1 d) : ∀ q ∈ s.placements.rows,
    q.document = d → ∀ row ∈ s.selections.get? q.child, row.kind = .field →
      s.hasDirective q.child Framework.paginateTag = false := by
  intro q hq hd row hrow hk
  have agrees := (analyse_agrees prepared analysed).1
  have here := (agrees.present q.child).symm.trans (contains_of_get? hrow)
  obtain ⟨row₀, name, hrow₀, hrow', _⟩ := (agrees.resembles q.child here).row
  obtain rfl := Option.some.inj (hrow.symm.trans hrow')
  rw [agrees.placements] at hq
  obtain ⟨ds, _, relists, _⟩ := analyse_discovers prepared analysed
  have retypes := retypeScalars_retypes s₀.loadSources.1 p.config.runtimeScalars
  rw [show s = _ from relists, foldl_registerComponent_rest, retypes]
  exact unadorned.unpaged q hq hd row₀ hrow₀ hk

theorem settled_of_generated (ready : s.Ready NoBorrowers) {name : String}
    (apart : ∀ name ∈ s₀.loadSources.1.fragmentNames, name ∉ Rule.generatedFragments s)
    (renamed : ∀ c ∈ s₀.loadSources.1.componentDeclarations,
      Framework.componentFragment c.condition c.field ∉ Rule.generatedFragments s)
    (hname : name ∈ Rule.generatedFragments s) : (p.rewrite s).Settled name := by
  refine settled_rewrite ready fun id row hrow hk heq => ?_
  obtain ⟨row₀, hrow₀, hkind, hn | ⟨c, hc, hn⟩⟩ := analyse_name prepared analysed hrow
  · refine absurd hname (apart name ?_)
    rw [← heq, hn]
    exact mem_fragmentNames hrow₀ (hkind.symm.trans hk)
  · exact absurd (heq ▸ hname) (hn ▸ renamed c hc)

theorem settled_of_unadorned (ready : s.Ready NoBorrowers)
    (distinct : s₀.loadSources.1.fragmentNames.Nodup) {row : DocumentRow}
    (hrow : s₀.loadSources.1.documents.get? d = some row) (hk : row.kind = .fragment)
    (unadorned : Unadorned s₀.loadSources.1 d) : (p.rewrite s).Settled row.name := by
  refine settled_rewrite ready fun id found hfound hkf hname => ?_
  have here := (analyse_document prepared analysed unadorned).trans hrow
  -- The fragment is the only one of its name.
  have same : id = d := by
    obtain ⟨row₀, hrow₀, hkind, hn | ⟨c, _, hn⟩⟩ := analyse_name prepared analysed hfound
    · exact eq_of_name_eq distinct hrow hk hrow₀ (hkind.symm.trans hkf) (hn.symm.trans hname)
    · have unique := uniqueNames_iff.mp (analyse_names prepared analysed).1
      have named : found.name ≠ "" := hn ▸ componentFragment_ne_empty _ _
      have keys : found.key = row.key := by rw [DocumentRow.key, DocumentRow.key, hkf, hk, hname]
      exact unique id d found row hfound here keys named
  subst same
  rw [variablesOf_rewrite ready (analyse_paged prepared analysed)
    (analyse_listsFields prepared analysed) (analyse_untagged prepared analysed unadorned)]
  refine List.eq_nil_iff_forall_not_mem.mpr ?_
  rintro ⟨n, v⟩ hm
  obtain ⟨hv, hdocument⟩ := mem_variablesOf.mp hm
  obtain ⟨v₀, hv₀, hdocument₀, _⟩ := (analyse_agrees prepared analysed).1.exists_declaration hv
  have declared : (n, v₀) ∈ s₀.loadSources.1.variablesOf id :=
    mem_variablesOf.mpr ⟨hv₀, hdocument₀.symm.trans hdocument⟩
  rw [variablesOf_eq_nil prepared hrow hk unadorned] at declared
  cases declared

end

/-! ## All of it -/

/-- If a compilation finds nothing wrong, and the fragments are called differently from each other
and from the list operations, before and after component fields are named, then a document that asks
for nothing prints at the end as it did after loading. -/
theorem plain_documents_keep_text {cancelled : Bool} {c : Compiled}
    (h : p.compile cancelled = .ok c) (clean : c.diagnostics = []) (loaded : p.After .loading l)
    (validated : p.After .rules s) (distinct : l.fragmentNames.Nodup)
    (apart : ∀ name ∈ l.fragmentNames, name ∉ Rule.generatedFragments s)
    (renamed : ∀ f ∈ l.componentDeclarations,
      Framework.componentFragment f.condition f.field ∉ Rule.generatedFragments s)
    {row : DocumentRow} (hrow : l.documents.get? d = some row)
    (plain : Undemanding p.config.runtimeScalars (Rule.generatedFragments s) l d) :
    ∃ text, l.printDocument d = .ok text ∧ c.store.printDocument d = .ok text := by
  obtain ⟨s₀, s', prepared, analysed, hstore⟩ := compile_clean h clean
  obtain rfl := validated.unique (.of_analyse prepared analysed) nofun
  obtain rfl := loaded.unique (.load (.prepare prepared)) nofun
  have readyₗ := (loadSources_ready (prepare_ready prepared).1).ready
  have ready : s.Ready NoBorrowers := analyse_ready (prepare_ready prepared).1
    (prepare_ready prepared).2 analysed
  obtain ⟨G, handed⟩ := Inlining.handed (handover?_of_analyse prepared analysed rfl)
  have analysis := analyse_intact prepared analysed distinct apart plain
  have rows := fun q hq hd => analyse_rows prepared analysed distinct apart plain (q := q) hq hd
  have placements := (analyse_agrees prepared analysed).1.placements
  have here : s.documents.contains d = true := Table.contains_of_get? (analysis.row.trans hrow)
  have paged := analyse_paged prepared analysed
  have listed := analyse_listsFields prepared analysed
  have untagged := analyse_untagged prepared analysed plain.toUnadorned
  have fields : ∀ q ∈ s.placements.rows, q.document = d → ∀ row,
      s.selections.get? q.child = some row → row.kind = .field → ∀ e ∈ s.componentFields.rows,
        row.type? ≠ some (Schema.idOf e.2.type e.2.field) := by
    intro q hq hd row hrow hk e he
    rw [placements] at hq
    obtain ⟨f, hf, rfl⟩ := analyse_declared prepared analysed he
    exact plain.fields q hq hd row ((rows q hq hd).symm.trans hrow) hk f hf
  have rewriting : Intact d s (p.rewrite s) := rewrite_intact ready paged listed untagged here
    fields
  have inlining : Intact d (p.rewrite s) (Inlining.finished (p.rewrite s)).store := by
    refine handed.intact (Table.contains_of_get? (rewriting.row.trans (analysis.row.trans hrow)))
      fun e he => ?_
    obtain ⟨⟨r, hr, hk, hname⟩, q, hq, hd, hchild⟩ := Inlining.mem_spreads.mp he
    have hm : q ∈ (p.rewrite s).placements.rows.filter (·.document = d) :=
      List.mem_filter.mpr ⟨hq, decide_eq_true hd⟩
    rw [rewrite_placements ready here] at hm
    have hq := (List.mem_filter.mp hm).1
    rw [← hchild, (rewrite_sameOn ready paged listed untagged fields hq hd).row] at hr
    rw [placements] at hq
    rcases plain.spreads q hq hd r ((rows q hq hd).symm.trans hr) hk with hg | ⟨f, hf, hkf, hnf, hu⟩
    · exact settled_of_generated prepared analysed ready apart renamed (hname ▸ hg)
    · rw [← hname, ← hnf]
      exact settled_of_unadorned prepared analysed ready distinct (Table.get?_of_mem hf) hkf hu
  obtain ⟨text, printed⟩ := readyₗ.toSound.printDocument_ok hrow
  refine ⟨text, printed, ?_⟩
  rw [hstore, Inlining.inlineArguments_store, ← printed]
  exact (analysis.trans (rewriting.trans inlining)).printDocument readyₗ.toSound
    handed.ran.held.sound

/-- Fragments have names of their own, and document `d` asks for nothing. -/
def isPlain (p : Project) (l s : Store) (d : Int) : Bool :=
  l.fragmentNames.Nodup && (l.fragmentNames.all fun name => name ∉ Rule.generatedFragments s) &&
    l.documents.contains d && Undemanding p.config.runtimeScalars (Rule.generatedFragments s) l d

theorem isPlain_iff : isPlain p l s d ↔ (l.fragmentNames.Nodup ∧
    ∀ name ∈ l.fragmentNames, name ∉ Rule.generatedFragments s) ∧
    (∃ row, l.documents.get? d = some row) ∧
    Undemanding p.config.runtimeScalars (Rule.generatedFragments s) l d := by
  simp [isPlain, contains_iff, and_assoc]

/-- The mutation of the gallery spreads a list operation and a plain fragment. -/
def spreadsPlainly (l s : Store) : Bool :=
  isPlain gallery l s 4 && (Inlining.spreads l 4).length = 2 && !l.componentDeclarations.isEmpty &&
    l.componentDeclarations.all fun f =>
      Framework.componentFragment f.condition f.field ∉ Rule.generatedFragments s

set_option maxRecDepth 100000 in
theorem gallery_spreadsPlainly :
    (gallerySpelling.analysis?.any fun e => spreadsPlainly e.1 e.2) := by
  decide +kernel

/-- The mutation of the gallery stays as it is, next to a list and a component field. -/
theorem gallery_plain_documents_keep_text : ∃ c l text, gallery.compile false = .ok c ∧
    c.diagnostics = [] ∧ gallery.After .loading l ∧ (Inlining.spreads l 4).length = 2 ∧
    l.componentDeclarations ≠ [] ∧ l.printDocument 4 = .ok text ∧
    c.store.printDocument 4 = .ok text := by
  obtain ⟨s₀, s, prepared, analysed, check⟩ := gallerySpelling.exists_of_any gallery_spreadsPlainly
  obtain ⟨c, compiled, clean, -⟩ := compile_of_analyse prepared analysed
  have loaded : gallery.After .loading s₀.loadSources.1 := .load (.prepare prepared)
  simp only [spreadsPlainly, Bool.and_eq_true, isPlain_iff, decide_eq_true_eq,
    Bool.not_eq_true', List.isEmpty_eq_false_iff, List.all_eq_true] at check
  obtain ⟨⟨⟨⟨⟨distinct, apart⟩, ⟨row, hrow⟩, plain⟩, spreads⟩, declared⟩, renamed⟩ := check
  obtain ⟨text, before, after⟩ := plain_documents_keep_text compiled clean loaded
    (.of_analyse prepared analysed) distinct apart renamed hrow plain
  exact ⟨c, _, text, compiled, clean, loaded, spreads, declared, before, after⟩

/-! ## A component field named like a list operation -/

/-- The fragment of the component field is named like the fragment that the mutation spreads. -/
def collision : Project where
  schema := "type Query \x7b user: User users: [User] \x7d
    type Mutation \x7b addUser: User \x7d
    type User \x7b id: ID avatar(size: Int): String \x7d"
  sources := [{
    filepath := "collision.graphql"
    content := "fragment Foo on User @componentField(prop: \"user\", field: \"Avatar_insert\")
          @arguments(size: \x7b type: \"Int\" \x7d) \x7b avatar(size: $size) \x7d
      query Q \x7b users @list(name: \"__componentField__User_Avatar\") \x7b id \x7d \x7d
      mutation M \x7b addUser \x7b ...__componentField__User_Avatar_insert \x7d \x7d" }]

set_option maxRecDepth 10000 in
def collisionSpelling : Spelling collision := ⟨_, [_], rfl, rfl⟩

/-- After six tasks the inliner is done, and the plain mutation has another text. -/
def changesPlain (l s handed : Store) : Bool :=
  let w := (Inlining.start handed).run 6
  w.isDone && isPlain collision l s 3 &&
  match l.printDocument 3, w.store.printDocument 3 with
  | .ok text, .ok text' => text != text'
  | _, _ => false

set_option maxRecDepth 100000 in
theorem collision_changesPlain : (collisionSpelling.analysis?.any fun e =>
    changesPlain e.1 e.2 (collision.rewrite e.2)) := by
  decide +kernel

/-- The mutation asks for nothing, but its spread finds the component field and is led to a
clone. -/
theorem collision_changes_text : ∃ c l s row text text', collision.compile false = .ok c ∧
    c.diagnostics = [] ∧ collision.After .loading l ∧ collision.After .rules s ∧
    l.fragmentNames.Nodup ∧ (∀ name ∈ l.fragmentNames, name ∉ Rule.generatedFragments s) ∧
    l.documents.get? 3 = some row ∧
    Undemanding collision.config.runtimeScalars (Rule.generatedFragments s) l 3 ∧
    l.printDocument 3 = .ok text ∧ c.store.printDocument 3 = .ok text' ∧ text ≠ text' := by
  obtain ⟨s₀, s, prepared, analysed, check⟩ :=
    collisionSpelling.exists_of_any collision_changesPlain
  obtain ⟨c, compiled, clean, hstore⟩ := compile_of_analyse prepared analysed
  obtain ⟨G, handed⟩ := Inlining.handed (handover?_of_analyse prepared analysed rfl)
  simp only [changesPlain, Bool.and_eq_true, isPlain_iff] at check
  obtain ⟨⟨done, ⟨distinct, apart⟩, ⟨row, hrow⟩, plain⟩, prints⟩ := check
  split at prints
  · next text text' htext htext' =>
    refine ⟨c, _, s, row, text, text', compiled, clean, .load (.prepare prepared),
      .of_analyse prepared analysed, distinct, apart, hrow, plain, htext, ?_, bne_iff_ne.mp prints⟩
    rw [hstore, transform, Inlining.inlineArguments_store, handed.finished_eq done]
    exact htext'
  · cases prints

end Project

end GraphDoc
