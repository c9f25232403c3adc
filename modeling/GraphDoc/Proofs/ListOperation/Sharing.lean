import GraphDoc.Proofs.ListOperation.Directives

/-!
# List operations share the selections of their lists

When list operations are generated, the fragments that record an entry select what the list selects
of one. Later stages rewrite selections, and with them both documents, so the fragments still agree
with their list when the compilation ends.
-/

set_option autoImplicit false

namespace GraphDoc

open Relation Table

namespace SelectionNode

theorem first_le_of_mem_newFields {typeName : String} {first : Int} {fields : List String}
    {n : SelectionNode} (h : n ∈ newFields typeName first fields) :
    first ≤ n.id ∧ n = .node n.id n.row [] [] [] := by
  induction fields generalizing first with
  | nil => cases h
  | cons field rest ih =>
    rcases List.mem_cons.mp h with rfl | h
    · exact ⟨Int.le_refl first, rfl⟩
    · obtain ⟨hle, bare⟩ := ih h
      exact ⟨by omega, bare⟩

end SelectionNode

namespace Store

open SelectionNode

variable {s t : Store} {G : Int → Prop} {d i : Int} {l : ListRow}

/-- The lists whose operations are generated. -/
def namedLists (s : Store) : List ListRow := s.lists.rows.filter fun l => !l.name.isEmpty

/-! ## The node of a list -/

/-- The node of a list: its field or, in a connection, the field `node` below the field `edges`. -/
structure RecordNode (s : Store) (l : ListRow) (n : SelectionNode) : Prop where
  shown : s.Shows l.document l.node n
  place : if l.connection = true then
      ∃ f, s.Shows l.document l.listField f ∧ ∃ e ∈ f.children,
        e.row.kind = .field ∧ e.row.name = "edges" ∧
        n ∈ e.children ∧ n.row.kind = .field ∧ n.row.name = "node"
    else l.node = l.listField

theorem Sound.exists_child (h : s.Sound G) {parent id : Int} {field : String} {n : SelectionNode}
    (hn : s.Shows d parent n) (hc : s.childField d parent field = some id) :
    ∃ m ∈ n.children, m.row.kind = .field ∧ m.row.name = field ∧ s.Shows d id m := by
  obtain ⟨⟨q, row⟩, hf, rfl⟩ := Option.map_eq_some_iff.mp hc
  obtain ⟨hm, hd, hrow⟩ := mem_placed (List.mem_of_find?_eq_some hf)
  have found := List.find?_some hf
  simp only [Bool.and_eq_true, decide_eq_true_eq, beq_iff_eq] at found
  obtain ⟨⟨hparent, hk⟩, hname⟩ := found
  have below : q.child ∈ s.below d (some parent) := mem_below.mpr ⟨q, hm, hd, hparent, rfl⟩
  obtain ⟨m, hchild, read⟩ := exists_mem_of_mapM (h.children_of_shows hn) below
  have same : m.row = row := by
    rw [(nodeFor_eq_ok read).2, SelectionNode.row, hrow]
    rfl
  have hid : m.id = q.child := by rw [(nodeFor_eq_ok read).2, SelectionNode.id]
  obtain ⟨tree, htree, stands, _⟩ := hn
  exact ⟨m, hchild, same ▸ hk, same ▸ hname, tree, htree, stands.child hchild, hid⟩

theorem Finds.reaches (h : s.Finds l) (hs : s.Closed) (planted : s.Planted) :
    s.Reaches l.document l.node := by
  obtain ⟨⟨q, hq, hchild, hdocument⟩, node, _⟩ := h
  split at node
  · obtain ⟨_, _, hnode⟩ := node
    obtain ⟨⟨q, row⟩, hf, hid⟩ := Option.map_eq_some_iff.mp hnode
    obtain ⟨hm, hd, _⟩ := mem_placed (List.mem_of_find?_eq_some hf)
    exact hd ▸ hid ▸ planted.reaches hs hm
  · rw [node]
    exact hdocument ▸ hchild ▸ planted.reaches hs hq

theorem Finds.exists_recordNode (h : s.Finds l) (hs : s.Sound G) (planted : s.Planted) :
    ∃ n, s.RecordNode l n := by
  obtain ⟨⟨q, hq, hchild, hdocument⟩, node, _⟩ := h
  obtain ⟨f, hf⟩ := hs.exists_shows (hdocument ▸ hchild ▸ planted.reaches hs.closed hq)
  split at node
  · next connection =>
    obtain ⟨edges, hedges, hnode⟩ := node
    obtain ⟨e, he, hk, hname, shown⟩ := hs.exists_child hf hedges
    obtain ⟨n, hn, hk', hname', shown'⟩ := hs.exists_child shown hnode
    refine ⟨n, shown', ?_⟩
    rw [if_pos connection]
    exact ⟨f, hf, e, he, hk, hname, hn, hk', hname'⟩
  · next plain =>
    refine ⟨f, node ▸ hf, ?_⟩
    rw [if_neg plain]
    exact node

/-! ## Right after generation -/

/-- A document and what it selects. -/
structure Selects (t : Store) (i : Int) (row : DocumentRow) (roots : List SelectionNode) :
    Prop where
  row : t.documents.get? i = some row
  tree : t.selectionTree i = .ok roots

/-- What generating list operations does. The fragments of the list at index `k` follow the
documents that there were and those of earlier lists. -/
structure GeneratesOperations (s t : Store) : Prop where
  documents : t.documents.rows = s.documents.rows ++ s.namedLists.flatMap fun l =>
    Framework.operationEndings.map (listFragment l (s.listPosition l))
  trees : ∀ d, s.documents.contains d = true → t.selectionTree d = s.selectionTree d
  directives : ∀ l ∈ s.namedLists,
    (∃ row, t.schema.directives.rowsAt (Framework.deleteDirective l.nodeType) = [row]) ∧
    t.schema.directiveLocations.contains (Framework.deleteDirective l.nodeType, "FIELD") = true
  nodes : ∀ l ∈ s.namedLists, ∃ n, s.RecordNode l n
  records : ∀ (k : Nat) l, s.namedLists[k]? = some l → ∀ n, s.Shows l.document l.node n →
    ∀ e ∈ [(1, Framework.insertEnding), (2, Framework.toggleEnding)],
      ∃ first, (s.selections.issued : Int) < first ∧
        t.Selects (s.documents.issued + 3 * k + e.1) (listFragment l (s.listPosition l) e.2)
          (n.children ++ newFields l.nodeType first
            ((s.keys l.nodeType ++ [Framework.typenameField]).filter
              (· ∉ plainFields n.children)))
  removes : ∀ (k : Nat) l, s.namedLists[k]? = some l →
    ∃ first, (s.selections.issued : Int) < first ∧
      t.Selects (s.documents.issued + 3 * k + 3)
        (listFragment l (s.listPosition l) Framework.removeEnding)
        (newFields l.nodeType first (s.keys l.nodeType ++ [Framework.typenameField]))

theorem Growing.refl (h : s.Ready NoBorrowers) : Growing s s := ⟨.refl h.beyond, .refl ..⟩

theorem generateListOperations_operates (h : s.Ready NoBorrowers) (planted : s.Planted) :
    s.generateListOperations.1.documents.rows = s.documents.rows ++ s.namedLists.flatMap (fun l =>
      Framework.operationEndings.map (listFragment l (s.listPosition l))) ∧
    ∀ (k : Nat) l, s.namedLists[k]? = some l →
      Operates s s.generateListOperations.1 l (s.documents.issued + 3 * k) :=
  foldl_addListOperations_operates h.closed planted s.namedLists (.refl h) fun _ hl =>
    h.roots (List.mem_filter.mp hl).1

theorem generateListOperations_grown (s : Store) :
    Generated s.documents.issued (fun _ => True) s s.generateListOperations.1 :=
  foldl_addListOperations_generated s.namedLists s

section

variable (g : Generated s.documents.issued (fun _ => True) s t) (hs : s.Sound G)
include g hs

theorem Generated.selectionTree {G' : Int → Prop} (ht : t.Sound G')
    (hd : s.documents.contains d) : t.selectionTree d = s.selectionTree d := by
  refine selectionTree_of_sameOn hs ht (g.filter_placements (le_issued_of_contains hd))
    fun q hq _ => ⟨?_, ?_, ?_⟩
  · exact g.selections.get?_of_le (le_issued_of_contains (hs.closed.placements q hq).2.1)
  · rw [g.rest]
    apply arguments_of_tables <;> rfl
  · rw [g.rest]
    apply nodes_of_tables <;> rfl

theorem Generated.bareNode {typeName : String} {first : Int} {fields : List String}
    (fresh : (s.selections.issued : Int) < first) {n : SelectionNode}
    (hn : n ∈ newFields typeName first fields) (hrow : t.selections.get? n.id = some n.row) :
    t.bareNode n.id = n := by
  obtain ⟨hle, bare⟩ := first_le_of_mem_newFields hn
  have beyond : (s.selections.issued : Int) < n.id := by omega
  have arguments : t.arguments n.id = [] := by
    rw [g.rest]
    refine Eq.trans ?_ (hs.closed.arguments_eq_nil beyond)
    apply arguments_of_tables <;> rfl
  have nodes : t.nodes .selection n.id = [] := by
    have same : t.nodes .selection n.id = s.nodes .selection n.id := by
      rw [g.rest]
      apply nodes_of_tables <;> rfl
    rw [same, Store.nodes, hs.closed.usesOf_eq_nil .selection beyond, List.map_nil]
  rw [Store.bareNode, hrow, arguments, nodes]
  exact bare.symm

theorem Brings.selects {G' : Int → Prop} (ht : t.Sound G') {ending : String} {copied : List Int}
    {fields : List String} (h : Brings s t l ending copied fields i) {ns : List SelectionNode}
    (hns : copied.mapM (t.nodeFor l.document Failure.depthLimit) = .ok ns) :
    ∃ first, (s.selections.issued : Int) < first ∧
      t.Selects i (listFragment l (s.listPosition l) ending)
        (ns ++ newFields l.nodeType first fields) := by
  obtain ⟨row, first, fresh, mirrors, rows⟩ := h
  refine ⟨first, fresh, row, ?_⟩
  rw [mirrors.selectionTree ht hns, List.map_map]
  congr 2
  refine Eq.trans (List.map_congr_left fun n hn => ?_) (List.map_id _)
  exact g.bareNode hs fresh hn (rows n hn)

end

theorem Sound.missingFields_eq (hs : s.Sound G) {n : SelectionNode}
    (hn : s.Shows l.document l.node n) :
    s.missingFields l = (s.keys l.nodeType ++ [Framework.typenameField]).filter
      (· ∉ plainFields n.children) := by
  rw [plainFields_of_mapM (fun x hx => hs.closed.contains_of_mem_below hx)
    (hs.children_of_shows hn)]
  rfl

theorem generateListOperations_operations (h : s.Ready NoBorrowers) (planted : s.Planted)
    (finds : ∀ l ∈ s.lists.rows, s.Finds l) (single : s.schema.directives.Single) :
    GeneratesOperations s s.generateListOperations.1 := by
  have sound := (generateListOperations_generating h).ready.toSound
  have grown := s.generateListOperations_grown
  obtain ⟨documents, operates⟩ := generateListOperations_operates h planted
  obtain ⟨single', -, -, declared⟩ := foldl_addListOperations_directives s.namedLists single
  have trees : ∀ d, s.documents.contains d →
      s.generateListOperations.1.selectionTree d = s.selectionTree d :=
    fun d hd => grown.selectionTree h.toSound sound hd
  have listed : ∀ (k : Nat) l, s.namedLists[k]? = some l → l ∈ s.lists.rows := fun k l hl =>
    (List.mem_filter.mp (List.mem_of_getElem? hl)).1
  refine ⟨documents, trees, fun l hl => ?_, fun l hl => ?_, fun k l hl n hn => ?_,
    fun k l hl => ?_⟩
  · obtain ⟨here, located⟩ := declared l hl
    exact ⟨single'.exists_rowsAt here, located⟩
  · exact (finds l (List.mem_filter.mp hl).1).exists_recordNode h.toSound planted
  · obtain ⟨insert, toggle, _⟩ := operates k l hl
    have roots := h.roots (listed k l hl)
    -- The document of the list shows the same node afterwards.
    have shown : s.generateListOperations.1.Shows l.document l.node n := by
      obtain ⟨tree, htree, stands⟩ := hn
      exact ⟨tree, (trees _ roots.document).trans htree, stands⟩
    have children := sound.children_of_shows shown
    rw [grown.below (le_issued_of_contains roots.document)] at children
    rw [← h.toSound.missingFields_eq hn]
    intro e he
    rcases List.mem_cons.mp he with rfl | he
    · exact insert.selects grown h.toSound sound children
    · obtain rfl := List.mem_singleton.mp he
      exact toggle.selects grown h.toSound sound children
  · obtain ⟨-, -, remove⟩ := operates k l hl
    exact remove.selects grown h.toSound sound List.mapM_nil

/-! ## At the end -/

theorem Reaches.congr {x : Int} (h : s.Reaches d x)
    (hd : ∀ parent?, t.below d parent? = s.below d parent?) : t.Reaches d x := by
  obtain ⟨root, hroot, reach⟩ := h
  exact ⟨root, (hd none).symm ▸ hroot, (above_congr hd).symm ▸ reach⟩

theorem Sound.length_children (hs : s.Sound G) {x : Int} {n : SelectionNode}
    (hn : s.Shows d x n) : n.children.length = (s.below d (some x)).length := by
  have length : ∀ {xs : List Int} {ns : List SelectionNode},
      xs.mapM (s.nodeFor d Failure.depthLimit) = .ok ns → ns.length = xs.length := by
    intro xs
    induction xs with
    | nil =>
      intro ns h
      cases h
      rfl
    | cons x xs ih =>
      intro ns h
      rw [List.mapM_cons] at h
      obtain ⟨n, _, h⟩ := bind_eq_ok.mp h
      obtain ⟨rest, hrest, h⟩ := bind_eq_ok.mp h
      cases h
      rw [List.length_cons, List.length_cons, ih hrest]
  exact length (hs.children_of_shows hn)

theorem Brings.shares {u : Store} {ending : String} {fields : List String}
    (h : Brings s t l ending (s.below l.document (some l.node)) fields i) (hs : s.Sound G)
    {G' : Int → Prop} (hu : u.Sound G')
    (before : ∀ parent?, u.below l.document parent? = s.below l.document parent?)
    (list : ∀ parent?, u.below l.document parent? = t.below l.document parent?)
    (fragment : ∀ parent?, u.below i parent? = t.below i parent?) {n n' : SelectionNode}
    (hn : s.Shows l.document l.node n) (hn' : u.Shows l.document l.node n') :
    ∃ roots, u.selectionTree i = .ok roots ∧ roots.take n.children.length = n'.children := by
  obtain ⟨-, first, -, mirrors, -⟩ := h
  have children := hu.children_of_shows hn'
  rw [before] at children
  refine ⟨_, (mirrors.congr list fragment).selectionTree hu children, ?_⟩
  rw [hs.length_children hn, ← before, ← hu.length_children hn', List.take_left]

end Store

namespace Inlining

open Store

variable {s s₀ : Store} {G : Int → Prop}

theorem Visit.grows {t : Task} {p p' : Progress} {spread : Int × String}
    (hv : Visit G t p spread p') {n : Nat} (hn : n ≤ p.store.documents.issued) :
    Table.Grows (fun q => (n : Int) < q.document) p.store.placements p'.store.placements := by
  cases hv with
  | settled => exact .refl
  | led => exact .refl
  | made _ _ _ _ cloned bound =>
    have first := cloned.copying.placements
    have later := cloned.copying.documents.issued_le
    refine .trans (first.mono fun q hq => ?_) (bound.copying.placements.mono fun q hq => ?_)
    · exact Int.lt_of_le_of_lt (Int.ofNat_le.mpr hn) hq
    · exact Int.lt_of_le_of_lt (Int.ofNat_le.mpr (Nat.le_trans hn later)) hq

theorem Handed.grows (h : Handed G s) (tasks : Nat) :
    Table.Grows (fun q => (s.documents.issued : Int) < q.document) s.placements
      ((start s).run tasks).store.placements := by
  refine (h.running.run_induction h.sound.closed h.lasting (P := fun w => Table.Grows
    (fun q => (s.documents.issued : Int) < q.document) s.placements w.store.placements) .refl
    (fun w hw hP => ?_) tasks).2
  cases hnext : w.next? with
  | none => rwa [Inlining.step, hnext]
  | some e =>
    obtain ⟨u, p, hst⟩ := hw.stepped h.sound.closed h.lasting hnext
    rw [hst.step]
    have opened : u.placements = w.store.placements := by rw [hst.performed.opened.rest]
    refine hst.performed.visits.induction (P := fun _ p => Table.Grows
      (fun q => (s.documents.issued : Int) < q.document) s.placements p.store.placements)
      h.sound.closed hst.performed.start (opened ▸ hP) fun spread rest p p' working visit hP => ?_
    exact hP.trans (visit.grows working.held.advances.documents.issued_le)

end Inlining

namespace Project

open Store SelectionNode

variable {p : Project} {s t : Store} {stage : Stage}

theorem After.generatesOperations (h : p.After stage s) (discovered : stage.discovered) :
    GeneratesOperations s s.generateListOperations.1 := by
  have original := Stage.original_of_discovered discovered
  exact generateListOperations_operations (h.ready original) (h.planted original)
    (h.finds discovered) (h.directives original)

theorem below_of_compile {cancelled : Bool} {c : Compiled} (h : p.compile cancelled = .ok c)
    (clean : c.diagnostics = []) : ∃ s G, p.After .pagination s ∧ c.store.Sound G ∧
      Table.Grows (fun _ => True) s.generateListOperations.1.documents c.store.documents ∧
      ∀ d, s.generateListOperations.1.documents.contains d → ∀ parent?,
        c.store.below d parent? = s.generateListOperations.1.below d parent? := by
  obtain ⟨s₀, s₁, prepared, analysed, hstore⟩ := compile_clean h clean
  have paged : p.After .pagination (s₁.preparePagination p.config).1 :=
    .paginate (.of_analyse prepared analysed)
  obtain ⟨G, handed⟩ := Inlining.handed (handover?_of_analyse prepared analysed rfl)
  have rest := (spreads_rewrite (p := p)
    (analyse_ready (prepare_ready prepared).1 (prepare_ready prepared).2 analysed)).rest
  rw [Inlining.inlineArguments_store] at hstore
  have documents : (p.rewrite s₁).documents =
      (s₁.preparePagination p.config).1.generateListOperations.1.documents := by rw [rest]; rfl
  have placements : (p.rewrite s₁).placements =
      (s₁.preparePagination p.config).1.generateListOperations.1.placements := by rw [rest]; rfl
  refine ⟨_, G, paged, hstore ▸ handed.ran.held.sound, ?_, fun d hd parent? => ?_⟩
  · rw [hstore, ← documents]
    exact handed.ran.held.advances.documents.mono fun _ _ => trivial
  · rw [hstore]
    have grows := handed.grows (Inlining.fuelFor (p.rewrite s₁))
    rw [placements, documents] at grows
    refine below_of_filter (grows.filter_rows (q := fun q => decide (q.document = d))
      fun q hq => decide_eq_false ?_) parent?
    have := le_issued_of_contains hd
    omega

/-- Generating list operations brings for each named list the fragments that insert, toggle and
remove a record. The first two select what the list selects of a record and the identifying fields
that are missing, the third identifies one. Nothing else changes, and each node type has one
directive to delete its records. If a compilation finds nothing wrong, then the first two still
begin with what the list selects when it ends. -/
theorem list_operations_mirror_lists (p : Project) :
    (∀ stage s, p.After stage s → stage.discovered = true →
      GeneratesOperations s s.generateListOperations.1) ∧
    ∀ cancelled c, p.compile cancelled = .ok c → c.diagnostics = [] →
      ∃ s, p.After .pagination s ∧
        ∀ (k : Nat) l, s.namedLists[k]? = some l →
          (∃ n', c.store.Shows l.document l.node n') ∧
          ∀ n n', s.Shows l.document l.node n → c.store.Shows l.document l.node n' →
            ∀ e ∈ [(1, Framework.insertEnding), (2, Framework.toggleEnding)],
              ∃ roots, c.store.Selects (s.documents.issued + 3 * k + e.1)
                  (listFragment l (s.listPosition l) e.2) roots ∧
                roots.take n.children.length = n'.children := by
  refine ⟨fun stage s h discovered => h.generatesOperations discovered,
    fun cancelled c h clean => ?_⟩
  obtain ⟨s, G, after, sound, documents, below⟩ := below_of_compile h clean
  refine ⟨s, after, fun k l hl => ?_⟩
  have ready := after.ready rfl
  have planted := after.planted rfl
  have listed := (List.mem_filter.mp (List.mem_of_getElem? hl)).1
  have roots := ready.roots listed
  have grown := s.generateListOperations_grown
  obtain ⟨insert, toggle, -⟩ := (generateListOperations_operates ready planted).2 k l hl
  have list := below l.document (grown.documents.contains roots.document)
  have before : ∀ parent?, c.store.below l.document parent? = s.below l.document parent? :=
    fun parent? => (list parent?).trans
      (grown.below (Table.le_issued_of_contains roots.document) parent?)
  have reaches := (after.finds rfl l listed).reaches ready.closed planted
  refine ⟨sound.exists_shows (reaches.congr before), fun n n' hn hn' e he => ?_⟩
  -- Both fragments are there when the compilation ends, placed as they were generated.
  have ends : ∀ {ending : String} {i : Int}, Brings s s.generateListOperations.1 l ending
      (s.below l.document (some l.node)) (s.missingFields l) i →
      ∃ roots, c.store.Selects i (listFragment l (s.listPosition l) ending) roots ∧
        roots.take n.children.length = n'.children := by
    intro ending i brings
    obtain ⟨roots, tree, leading⟩ := brings.shares ready.toSound sound before list
      (below i (Table.contains_of_get? brings.row)) hn hn'
    exact ⟨roots, ⟨documents.get?_of_get? brings.row, tree⟩, leading⟩
  rcases List.mem_cons.mp he with rfl | he
  · exact ends insert
  · obtain rfl := List.mem_singleton.mp he
    exact ends toggle

/-! ## A roster -/

/-- A plain list and a connection. The connection selects the key under an alias, and a spread that
is led to a clone. -/
def roster : Project where
  schema := "type Query \x7b users: [User] friends: Friends \x7d
    type Friends \x7b edges: [Friend] \x7d
    type Friend \x7b node: User \x7d
    type User \x7b id: ID best: User avatar(size: Int): String \x7d"
  sources := [{
    filepath := "roster.graphql"
    content := "fragment Pic on User @arguments(n: \x7b type: \"Int\" \x7d) \x7b avatar(size: $n) \x7d
      query Roster \x7b
        users @list(name: \"All\") \x7b id \x7d
        friends @list(name: \"Friends\") \x7b
          edges \x7b node \x7b key: id __typename best \x7b id \x7d ...Pic @with(n: 1) \x7d \x7d
        \x7d
      \x7d" }]

set_option maxRecDepth 10000 in
def rosterSpelling : Spelling roster := ⟨_, [_], rfl, rfl⟩

/-- The second named list is a connection that selects four things of a record, but not its key. -/
def listsConnection (s : Store) : Bool :=
  s.namedLists[1]?.any fun l => l.connection && decide (s.missingFields l = ["id"]) &&
    decide ((s.below l.document (some l.node)).length = 4)

set_option maxRecDepth 100000 in
theorem roster_listsConnection : (rosterSpelling.analysis?.any fun e =>
    listsConnection (e.2.preparePagination roster.config).1) := by
  decide +kernel

theorem roster_list_operations_mirror_lists : ∃ c s l n n', roster.compile false = .ok c ∧
    c.diagnostics = [] ∧ roster.After .pagination s ∧ s.namedLists[1]? = some l ∧
    l.connection = true ∧ s.RecordNode l n ∧ n.children.length = 4 ∧
    c.store.Shows l.document l.node n' ∧
    (∃ first, s.generateListOperations.1.Selects (s.documents.issued + 3 * 1 + 1)
      (listFragment l (s.listPosition l) Framework.insertEnding)
      (n.children ++ newFields l.nodeType first ["id"])) ∧
    ∃ roots, c.store.Selects (s.documents.issued + 3 * 1 + 1)
      (listFragment l (s.listPosition l) Framework.insertEnding) roots ∧
      roots.take 4 = n'.children := by
  obtain ⟨s₀, s₁, prepared, analysed, check⟩ :=
    rosterSpelling.exists_of_any roster_listsConnection
  obtain ⟨c, compiled, clean, -⟩ := compile_of_analyse prepared analysed
  obtain ⟨generates, ends⟩ := list_operations_mirror_lists roster
  obtain ⟨s, after, mirrored⟩ := ends false c compiled clean
  obtain rfl := after.unique (.paginate (.of_analyse prepared analysed)) nofun
  simp only [listsConnection, Option.any_eq_true, Bool.and_eq_true, decide_eq_true_eq] at check
  obtain ⟨l, hl, ⟨connection, missing⟩, length⟩ := check
  have sound := (after.ready rfl).toSound
  have operations := generates .pagination _ after rfl
  obtain ⟨n, hn⟩ := operations.nodes l (List.mem_of_getElem? hl)
  have four : n.children.length = 4 := (sound.length_children hn.shown).trans length
  rw [sound.missingFields_eq hn.shown] at missing
  obtain ⟨first, -, insert⟩ := operations.records 1 l hl n hn.shown _ List.mem_cons_self
  rw [missing] at insert
  obtain ⟨⟨n', hn'⟩, both⟩ := mirrored 1 l hl
  obtain ⟨roots, selects, leading⟩ := both n n' hn.shown hn' _ List.mem_cons_self
  rw [four] at leading
  exact ⟨c, _, l, n, n', compiled, clean, after, hl, connection, hn, four, hn', ⟨first, insert⟩,
    roots, selects, leading⟩

end Project

end GraphDoc
