import GraphDoc.Proofs.Store.Reading

/-!
# Reading selections

In a sound store every selection tree can be read. `Store.arguments` and `Store.nodes` give what
stands on a selection without failures, and `Store.Translates` says when the tree of one document is
that of another one with other numbers, rows or values.
-/

set_option autoImplicit false

namespace GraphDoc

namespace SelectionNode

mutual

/-- The node with its numbers, rows and argument values translated. -/
def rewrite (ids : Int → Int) (rows : Int → SelectionRow → SelectionRow) (values : Value → Value) :
    SelectionNode → SelectionNode
  | node id row arguments directives children =>
    node (ids id) (rows id row) (arguments.map fun a => (a.1, values a.2)) directives
      (rewriteAll ids rows values children)

def rewriteAll (ids : Int → Int) (rows : Int → SelectionRow → SelectionRow)
    (values : Value → Value) : List SelectionNode → List SelectionNode
  | [] => []
  | n :: ns => n.rewrite ids rows values :: rewriteAll ids rows values ns

end

variable {ids ids' : Int → Int} {rows rows' : Int → SelectionRow → SelectionRow}
  {values values' : Value → Value}

theorem rewriteAll_eq_map (ns : List SelectionNode) :
    rewriteAll ids rows values ns = ns.map (rewrite ids rows values) := by
  induction ns with
  | nil => rfl
  | cons n ns ih => rw [rewriteAll, ih, List.map_cons]

mutual

theorem rewrite_rewrite : (n : SelectionNode) →
    (n.rewrite ids rows values).rewrite ids' rows' values' =
      n.rewrite (fun id => ids' (ids id)) (fun id row => rows' (ids id) (rows id row))
        (fun v => values' (values v))
  | node id row arguments directives children => by
    simp only [rewrite, List.map_map, Function.comp_def, rewriteAll_rewriteAll children]

theorem rewriteAll_rewriteAll : (ns : List SelectionNode) →
    rewriteAll ids' rows' values' (rewriteAll ids rows values ns) =
      rewriteAll (fun id => ids' (ids id)) (fun id row => rows' (ids id) (rows id row))
        (fun v => values' (values v)) ns
  | [] => rfl
  | n :: ns => by simp only [rewriteAll, rewrite_rewrite n, rewriteAll_rewriteAll ns]

end

mutual

theorem rewrite_id : (n : SelectionNode) →
    n.rewrite (fun x => x) (fun _ row => row) (fun v => v) = n
  | node id row arguments directives children => by
    simp only [rewrite, List.map_id', rewriteAll_id children]

theorem rewriteAll_id : (ns : List SelectionNode) →
    rewriteAll (fun x => x) (fun _ row => row) (fun v => v) ns = ns
  | [] => rfl
  | n :: ns => by simp only [rewriteAll, rewrite_id n, rewriteAll_id ns]

end

end SelectionNode

namespace Store

variable {s s' : Store} {G G' : Int → Prop}

/-- The arguments of a selection. -/
def arguments (s : Store) (x : Int) : List (String × Value) :=
  (s.argumentRows x).map fun a => (a.2.name, s.read a.2.value)

/-- A directive with its arguments. -/
def nodeOf (s : Store) (site : Site) (use : Int × DirectiveUse) : DirectiveNode :=
  ⟨use.2.name, ((s.directives site).argumentsOf use.1).map fun a => (a.2.name, s.read a.2.value)⟩

/-- The directives on a row. -/
def nodes (s : Store) (site : Site) (owner : Int) : List DirectiveNode :=
  ((s.directives site).usesOf owner).map (s.nodeOf site)

theorem Sound.argumentValues_eq (h : s.Sound G) (x : Int) :
    s.argumentValues x = .ok (s.arguments x) := by
  refine mapM_eq_ok fun a ha => ?_
  have hc := (h.closed.fieldArguments a.2
    (Table.mem_rows_of_get? (Table.get?_of_mem (List.mem_filter.mp ha).1))).2
  rw [h.value_eq_read hc]
  rfl

theorem Sound.directiveArgumentValues_eq (h : s.Sound G) (site : Site) (use : Int) :
    s.directiveArgumentValues site use =
      .ok (((s.directives site).argumentsOf use).map fun a => (a.2.name, s.read a.2.value)) := by
  refine mapM_eq_ok fun a ha => ?_
  have hc := ((h.closed.directives site).arguments a.2
    (Table.mem_rows_of_get? (Table.get?_of_mem (List.mem_filter.mp ha).1))).2
  rw [h.value_eq_read hc]
  rfl

theorem Sound.directiveNodes_eq (h : s.Sound G) (site : Site) (owner : Int) :
    s.directiveNodes site owner = .ok (s.nodes site owner) := by
  refine mapM_eq_ok fun use _ => ?_
  rw [h.directiveArgumentValues_eq]
  rfl

theorem read_setDirectives (s : Store) (site : Site) (T : DirectiveTables) (id : Int) :
    (s.setDirectives site T).read id = s.read id := by
  apply read_of_tables <;> cases site <;> rfl

theorem arguments_of_tables (ha : s'.fieldArguments = s.fieldArguments)
    (hv : s'.values = s.values) (hl : s'.valueLinks = s.valueLinks) (x : Int) :
    s'.arguments x = s.arguments x := by
  simp only [arguments, argumentRows, ha, read_of_tables hv hl]

theorem nodes_of_tables {site : Site} (hd : s'.directives site = s.directives site)
    (hv : s'.values = s.values) (hl : s'.valueLinks = s.valueLinks) (x : Int) :
    s'.nodes site x = s.nodes site x := by
  have hnode : s'.nodeOf site = s.nodeOf site := by
    funext use
    simp only [nodeOf, hd, read_of_tables hv hl]
  rw [nodes, nodes, hd, hnode]

/-- Nothing stands on a selection that is not there. -/
theorem Closed.arguments_eq_nil (h : s.Closed) {x : Int} (hx : (s.selections.issued : Int) < x) :
    s.arguments x = [] := by
  refine List.map_eq_nil_iff.mpr (List.filter_eq_nil_iff.mpr fun a ha => ?_)
  have hm := Table.mem_rows_of_get? (Table.get?_of_mem ha)
  have := Table.le_issued_of_contains (h.fieldArguments a.2 hm).1
  simp only [decide_eq_true_eq]
  omega

theorem argumentRows_addFieldArgument (s : Store) (row : FieldArgument) (x : Int) :
    (s.addFieldArgument row).1.argumentRows x =
      s.argumentRows x ++ if row.selection = x then [(s.fieldArguments.nextId, row)] else [] := by
  simp only [argumentRows, addFieldArgument, Table.entries_push, List.filter_append]
  by_cases h : row.selection = x <;> simp [h]

theorem arguments_addFieldArgument (s : Store) (row : FieldArgument) (x : Int) :
    (s.addFieldArgument row).1.arguments x =
      s.arguments x ++ if row.selection = x then [(row.name, s.read row.value)] else [] := by
  have same : ∀ id, (s.addFieldArgument row).1.read id = s.read id := by
    intro id
    apply read_of_tables <;> rfl
  simp only [arguments, argumentRows_addFieldArgument, same, List.map_append]
  congr 1
  split <;> rfl

theorem Sound.level_succ (h : s.Sound G) (placed : List (Placement × SelectionRow)) (depth : Nat)
    (parent? : Option Int) : s.level placed (depth + 1) parent? =
      (placed.filter (·.1.parent? = parent?)).mapM fun e =>
        (s.level placed depth (some e.1.child)).map fun children =>
          .node e.1.child e.2 (s.arguments e.1.child) (s.nodes .selection e.1.child) children := by
  rw [level]
  refine mapM_congr fun e _ => ?_
  obtain ⟨p, row⟩ := e
  simp only [h.argumentValues_eq, h.directiveNodes_eq]
  cases s.level placed depth (some p.child) <;> rfl

theorem mem_placed_iff {document : Int} {e : Placement × SelectionRow} :
    e ∈ s.placed document ↔ e.1 ∈ s.placements.rows ∧ e.1.document = document ∧
      s.selections.get? e.1.child = some e.2 := by
  obtain ⟨p, row⟩ := e
  simp only [placed, List.mem_filterMap, mem_sortBy_iff, List.mem_filter, decide_eq_true_eq,
    Option.map_eq_some_iff, Prod.mk.injEq]
  constructor
  · rintro ⟨_, ⟨hm, hd⟩, _, hrow, rfl, rfl⟩
    exact ⟨hm, hd, hrow⟩
  · rintro ⟨hm, hd, hrow⟩
    exact ⟨p, ⟨hm, hd⟩, row, hrow, rfl, rfl⟩

theorem mem_placed {document : Int} {e : Placement × SelectionRow} (h : e ∈ s.placed document) :
    e.1 ∈ s.placements.rows ∧ e.1.document = document ∧
    s.selections.get? e.1.child = some e.2 := mem_placed_iff.mp h

/-- The deeper a selection stands, the less room is left, but there is always some. -/
theorem Sound.level_ok (h : s.Sound G) (document : Int) {depth n : Nat} {x : Int}
    (hx : Descent s.placements n x) (hn : Failure.depthLimit ≤ n + depth) :
    ∃ tree, s.level (s.placed document) depth (some x) = .ok tree := by
  induction depth generalizing n x with
  | zero =>
    have := h.shallow n x hx
    omega
  | succ depth ih =>
    have below : ∀ e ∈ (s.placed document).filter (·.1.parent? = some x),
        ∃ tree, s.level (s.placed document) depth (some e.1.child) = .ok tree := by
      intro e he
      obtain ⟨hm, hp⟩ := List.mem_filter.mp he
      exact ih (hx.down (mem_placed hm).1 (of_decide_eq_true hp)) (by omega)
    rw [h.level_succ]
    refine ⟨_, mapM_eq_ok (g := fun e => .node e.1.child e.2 (s.arguments e.1.child)
      (s.nodes .selection e.1.child)
      ((s.level (s.placed document) depth (some e.1.child)).toOption.getD [])) fun e he => ?_⟩
    obtain ⟨tree, ht⟩ := below e he
    rw [ht]
    rfl

theorem Sound.selectionTree_ok (h : s.Sound G) (document : Int) :
    ∃ tree, s.selectionTree document = .ok tree := by
  rw [selectionTree, h.level_succ]
  refine ⟨_, mapM_eq_ok (g := fun e => .node e.1.child e.2 (s.arguments e.1.child)
    (s.nodes .selection e.1.child) ((s.level (s.placed document) Failure.depthLimit
      (some e.1.child)).toOption.getD [])) fun e he => ?_⟩
  obtain ⟨tree, ht⟩ : ∃ tree, s.level (s.placed document) Failure.depthLimit (some e.1.child) =
      .ok tree := h.level_ok document (.here e.1.child) (Nat.le_add_left _ _)
  rw [ht]
  rfl

/-- `placed'` in `s'` shows what `placed` in `s` shows, translated. -/
structure Translates (s s' : Store) (ids : Int → Int) (rows : Int → SelectionRow → SelectionRow)
    (values : Value → Value) (placed placed' : List (Placement × SelectionRow)) : Prop where
  placements : ∃ g, placed' = placed.map g ∧ ∀ e ∈ placed,
    (g e).1.parent? = e.1.parent?.map ids ∧ (g e).1.child = ids e.1.child ∧
    (g e).2 = rows e.1.child e.2
  faithful : ∀ e ∈ placed, ∀ x, e.1.parent? = some x → ∀ e' ∈ placed,
    ids x = ids e'.1.child → x = e'.1.child
  arguments : ∀ e ∈ placed, s'.arguments (ids e.1.child) =
    (s.arguments e.1.child).map fun a => (a.1, values a.2)
  nodes : ∀ e ∈ placed, s'.nodes .selection (ids e.1.child) = s.nodes .selection e.1.child

variable {ids : Int → Int} {rows : Int → SelectionRow → SelectionRow} {values : Value → Value}
  {placed placed' : List (Placement × SelectionRow)}

theorem Translates.level (ht : Translates s s' ids rows values placed placed') (h : s.Sound G)
    (h' : s'.Sound G') {parent? : Option Int}
    (hp : ∀ x, parent? = some x → ∃ e ∈ placed, e.1.child = x) (depth : Nat) :
    s'.level placed' depth (parent?.map ids) = (s.level placed depth parent?).map
      (SelectionNode.rewriteAll ids rows values) := by
  obtain ⟨g, hg, hmap⟩ := ht.placements
  induction depth generalizing parent? with
  | zero => rfl
  | succ depth ih =>
    -- The same entries stand below the translated parent.
    have same : placed'.filter (·.1.parent? = parent?.map ids) =
        (placed.filter (·.1.parent? = parent?)).map g := by
      rw [hg, List.filter_map]
      congr 1
      refine List.filter_congr fun e he => ?_
      simp only [Function.comp_apply, (hmap e he).1, decide_eq_decide]
      constructor
      · cases hparent : e.1.parent? with
        | none => cases parent? <;> simp
        | some x =>
          cases hp' : parent? with
          | none => simp
          | some y =>
            obtain ⟨e', he', rfl⟩ := hp y hp'
            intro hid
            rw [ht.faithful e he x hparent e' he' (by simpa using hid)]
      · exact fun hid => by rw [hid]
    rw [h.level_succ, h'.level_succ, same, List.mapM_map,
      show SelectionNode.rewriteAll ids rows values = List.map (SelectionNode.rewrite ids rows values)
        from funext SelectionNode.rewriteAll_eq_map, ← mapM_map_result]
    refine mapM_congr fun e he => ?_
    have hm := (List.mem_filter.mp he).1
    obtain ⟨_, hchild, hrow⟩ := hmap e hm
    have below := @ih (some e.1.child) fun x hx => ⟨e, hm, Option.some.inj hx⟩
    simp only [Function.comp_apply, hchild, hrow, ht.arguments e hm, ht.nodes e hm]
    rw [show some (ids e.1.child) = (some e.1.child).map ids from rfl, below]
    cases s.level placed depth (some e.1.child) <;> rfl

theorem Translates.selectionTree {document document' : Int} (h : s.Sound G) (h' : s'.Sound G')
    (ht : Translates s s' ids rows values (s.placed document) (s'.placed document')) :
    s'.selectionTree document' = (s.selectionTree document).map
      (SelectionNode.rewriteAll ids rows values) :=
  ht.level h h' (fun x (hx : none = some x) => nomatch hx) _

/-- Without a translation the trees are equal. -/
theorem Translates.selectionTree_eq {document document' : Int} (h : s.Sound G) (h' : s'.Sound G')
    (ht : Translates s s' (fun x => x) (fun _ row => row) (fun v => v) (s.placed document)
      (s'.placed document')) : s'.selectionTree document' = s.selectionTree document := by
  rw [ht.selectionTree h h']
  cases s.selectionTree document with
  | error _ => rfl
  | ok tree => exact congrArg Except.ok (SelectionNode.rewriteAll_id tree)

end Store

end GraphDoc
