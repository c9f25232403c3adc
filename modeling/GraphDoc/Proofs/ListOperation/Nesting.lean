import GraphDoc.Proofs.ListOperation.Sharing

/-!
# Operations on nested lists

A list is nested if it lies in a fragment or below a field that returns a list. The rule climbs from
placement to placement to find such a field, which gives the ancestors that the selection tree has.
It reports each spread of an operation on a nested list that does not say which list it means.
-/

set_option autoImplicit false

namespace GraphDoc

open Relation Table

/-! ## Names of operations -/

theorem Text.stripEnding?_eq_some {ending text name : String} :
    Text.stripEnding? ending text = some name ↔ text = name ++ ending := by
  rw [Text.stripEnding?, Option.ite_none_right_eq_some, List.isSuffixOf_iff_suffix]
  constructor
  · rintro ⟨⟨front, hfront⟩, hname⟩
    obtain rfl := Option.some.inj hname
    apply String.toList_inj.mp
    rw [String.toList_append, String.toList_ofList, ← hfront]
    simp
  · rintro rfl
    simp

theorem Rule.updatedList?_eq_some {fragment name : String} :
    updatedList? fragment = some name ↔
      ∃ ending ∈ Framework.operationEndings, fragment = name ++ ending := by
  -- The endings have one length, so a name has at most one of them.
  have length : ∀ ending ∈ Framework.operationEndings, ending.toList.length = 7 := by
    decide
  constructor
  · intro h
    obtain ⟨ending, hm, hstrip⟩ := List.exists_of_findSome?_eq_some h
    exact ⟨ending, hm, Text.stripEnding?_eq_some.mp hstrip⟩
  · rintro ⟨ending, hm, rfl⟩
    cases h : updatedList? (name ++ ending) with
    | none =>
      have none := List.findSome?_eq_none_iff.mp h ending hm
      rw [Text.stripEnding?_eq_some.mpr rfl] at none
      cases none
    | some other =>
      obtain ⟨ending', hm', hstrip⟩ := List.exists_of_findSome?_eq_some h
      have key := congrArg String.toList (Text.stripEnding?_eq_some.mp hstrip)
      rw [String.toList_append, String.toList_append] at key
      rw [String.toList_inj.mp
        (List.append_inj_left' key ((length _ hm).trans (length _ hm').symm))]

theorem distinctBy_eq_self {α β : Type} [DecidableEq β] {key : α → β} {l : List α}
    (h : l.Pairwise fun a b => key a ≠ key b) : distinctBy key l = l := by
  induction l with
  | nil => rfl
  | cons a l ih =>
    obtain ⟨ha, hl⟩ := List.pairwise_cons.mp h
    rw [distinctBy, ih hl, List.filter_eq_self.mpr]
    exact fun b hb => decide_eq_true (ha b hb).symm

namespace SelectionNode

/-- The second node is a child of the first. -/
def Holds (n m : SelectionNode) : Prop := m ∈ n.children

end SelectionNode

namespace Store

open SelectionNode

variable {s : Store} {G : Int → Prop} {d x y : Int}

/-! ## Ancestors -/

theorem mem_parentsIn : y ∈ s.parentsIn d x ↔ s.Above d y x := by
  rw [Above, mem_below, parentsIn, List.mem_filterMap]
  simp only [Option.ite_none_right_eq_some, Bool.and_eq_true, decide_eq_true_eq]
  constructor
  · rintro ⟨q, hq, ⟨hd, hchild⟩, hparent⟩
    exact ⟨q, hq, hd, hparent, hchild⟩
  · rintro ⟨q, hq, hd, hparent, hchild⟩
    exact ⟨q, hq, ⟨hd, hchild⟩, hparent⟩

theorem Planted.placed_of_above (h : s.Planted) (hyx : s.Above d y x) :
    y < x ∧ ∃ q ∈ s.placements.rows, q.child = y ∧ q.document = d := by
  obtain ⟨q, hq, rfl, hparent, rfl⟩ := mem_below.mp hyx
  exact h.rooted q hq y hparent

theorem mem_ancestors_iff : y ∈ s.ancestors d x ↔ TransGen (s.Above d) y x := by
  constructor
  · intro hy
    refine closure_induction (P := fun y => TransGen (s.Above d) y x) (fun a ha => ?_)
      (fun a b ha hb => ?_) y hy
    · exact .single (mem_parentsIn.mp ha)
    · exact .head (mem_parentsIn.mp hb) ha
  · intro hy
    induction hy using TransGen.head_induction_on with
    | single hyx => exact mem_closure_of_start _ _ (mem_parentsIn.mpr hyx)
    | head hyz _ ih =>
      refine closeFrom_closed (s.placements.rows.filterMap (·.parent?)) (fun a b hb => ?_) _ _ _
        (fun a ha hnot => absurd ha hnot) ?_ _ ih _ (mem_parentsIn.mpr hyz)
      · obtain ⟨q, hq, _, hparent, _⟩ := mem_below.mp (mem_parentsIn.mp hb)
        exact List.mem_filterMap.mpr ⟨q, hq, hparent⟩
      · calc _ ≤ (s.placements.rows.filterMap (·.parent?)).length := List.countP_le_length
          _ ≤ s.placements.rows.length := List.length_filterMap_le ..
          _ = s.placements.size := List.length_map ..

/-! ## The tree -/

theorem Sound.row_of_shows (h : s.Sound G) {n : SelectionNode} {row : SelectionRow}
    (hn : s.Shows d x n) (hrow : s.selections.get? x = some row) : n.row = row := by
  obtain ⟨tree, htree, stands, rfl⟩ := hn
  obtain ⟨depth, read⟩ := h.nodeFor_of_standsIn htree stands
  rw [(nodeFor_eq_ok read).2, SelectionNode.row, hrow]
  rfl

theorem Sound.above_of_holds (h : s.Sound G) {n m : SelectionNode} (hn : s.Shows d x n)
    (hm : n.Holds m) : s.Above d x m.id ∧ s.Shows d m.id m := by
  obtain ⟨y, hy, read⟩ := exists_of_mem_mapM (h.children_of_shows hn) hm
  have hid : m.id = y := by rw [(nodeFor_eq_ok read).2, SelectionNode.id]
  obtain ⟨tree, htree, stands, _⟩ := hn
  exact ⟨hid ▸ hy, tree, htree, stands.child hm, rfl⟩

theorem Sound.exists_holds (h : s.Sound G) {n : SelectionNode} (hn : s.Shows d x n)
    (hy : s.Above d x y) : ∃ m, n.Holds m ∧ s.Shows d y m := by
  obtain ⟨m, hm, read⟩ := exists_mem_of_mapM (h.children_of_shows hn) hy
  have hid : m.id = y := by rw [(nodeFor_eq_ok read).2, SelectionNode.id]
  exact ⟨m, hm, hid ▸ (h.above_of_holds hn hm).2⟩

theorem Sound.transGen_above_iff (h : s.Sound G) {n : SelectionNode} (hn : s.Shows d y n) :
    TransGen (s.Above d) y x ↔ ∃ m, TransGen Holds n m ∧ m.id = x := by
  constructor
  · intro hyx
    have key : ∃ m, TransGen Holds n m ∧ s.Shows d x m := by
      induction hyx with
      | single hyz =>
        obtain ⟨m, hm, shown⟩ := h.exists_holds hn hyz
        exact ⟨m, .single hm, shown⟩
      | tail _ hzw ih =>
        obtain ⟨m, hm, shown⟩ := ih
        obtain ⟨m', hm', shown'⟩ := h.exists_holds shown hzw
        exact ⟨m', .tail hm hm', shown'⟩
    obtain ⟨m, hm, _, _, _, hid⟩ := key
    exact ⟨m, hm, hid⟩
  · rintro ⟨m, hm, rfl⟩
    have key : TransGen (s.Above d) y m.id ∧ s.Shows d m.id m := by
      induction hm with
      | single hm =>
        obtain ⟨above, shown⟩ := h.above_of_holds hn hm
        exact ⟨.single above, shown⟩
      | tail _ hm ih =>
        obtain ⟨above, shown⟩ := h.above_of_holds ih.2 hm
        exact ⟨.tail ih.1 above, shown⟩
    exact key.1

/-- A field that returns a list. -/
def IsListField (schema : Schema) (row : SelectionRow) : Prop :=
  row.kind = .field ∧ ∃ id type, row.type? = some id ∧ schema.fieldType? id = some type ∧
    type.isList = true

/-- In the tree of the document a field that returns a list is a proper ancestor of the selection. -/
def LiesUnderList (s : Store) (document selection : Int) : Prop :=
  ∃ tree n m, s.selectionTree document = .ok tree ∧ n.StandsIn tree ∧ TransGen Holds n m ∧
    m.id = selection ∧ IsListField s.schema n.row

theorem isUnderList_iff (h : s.Sound G) (planted : s.Planted) :
    s.isUnderList d x ↔ s.LiesUnderList d x := by
  have row_of_above : ∀ {y}, TransGen (s.Above d) y x → ∃ row, s.selections.get? y = some row ∧
      ∃ n, s.Shows d y n := by
    intro y hyx
    obtain ⟨z, hyz, _⟩ := TransGen.head'_iff.mp hyx
    obtain ⟨_, q, hq, rfl, rfl⟩ := planted.placed_of_above hyz
    obtain ⟨row, hrow⟩ := contains_iff.mp (h.closed.placements q hq).2.1
    exact ⟨row, hrow, h.exists_shows (planted.reaches h.closed hq)⟩
  rw [isUnderList, List.any_eq_true]
  constructor
  · rintro ⟨y, hy, list⟩
    have hyx := mem_ancestors_iff.mp hy
    obtain ⟨row, hrow, n, shown⟩ := row_of_above hyx
    obtain ⟨m, hm, hid⟩ := (h.transGen_above_iff shown).mp hyx
    rw [hrow, Option.any_eq_true] at list
    obtain ⟨type, htype, list⟩ := list
    obtain ⟨id, hrowtype, hfield⟩ := Option.bind_eq_some_iff.mp htype
    have hrowtype : row.type? = some id := hrowtype
    have kind := planted.typed row (mem_rows_of_get? hrow) (by rw [hrowtype]; rfl)
    have same := h.row_of_shows shown hrow
    obtain ⟨tree, htree, stands, _⟩ := shown
    exact ⟨tree, n, m, htree, stands, hm, hid, same ▸ ⟨kind, id, type, hrowtype, hfield, list⟩⟩
  · rintro ⟨tree, n, m, htree, stands, hm, hid, _, id, type, hrowtype, hfield, list⟩
    have shown : s.Shows d n.id n := ⟨tree, htree, stands, rfl⟩
    have hyx := (h.transGen_above_iff shown).mpr ⟨m, hm, hid⟩
    obtain ⟨row, hrow, _⟩ := row_of_above hyx
    refine ⟨n.id, mem_ancestors_iff.mpr hyx, ?_⟩
    rw [← h.row_of_shows shown hrow] at hrow
    simp [hrow, hrowtype, hfield, list]

/-! ## Spreads of operations -/

/-- A list of this name lies in a fragment or under a list. -/
def HasNestedList (s : Store) (name : String) : Prop :=
  ∃ l ∈ s.namedLists, l.name = name ∧
    ((∃ d, s.documents.get? l.document = some d ∧ d.kind = .fragment) ∨
      s.LiesUnderList l.document l.listField)

/-- A placed spread of an operation on a nested list that does not say which list it means. -/
def Unaimed (s : Store) (q : Placement) : Prop :=
  ∃ row, s.selections.get? q.child = some row ∧ row.kind = .fragment ∧
    (∃ name, ∃ ending ∈ ["_insert", "_toggle", "_remove"], row.name = name ++ ending ∧
      s.HasNestedList name) ∧
    ∀ u ∈ s.selectionDirectives.uses.rows, u.owner = q.child →
      u.name ≠ "parentID" ∧ u.name ≠ "allLists"

/-- What is reported of a spread, and where. -/
def Reports (s : Store) (q : Placement) (found : Diagnostic) : Prop :=
  ∃ row document location, s.selections.get? q.child = some row ∧
    s.documents.get? q.document = some document ∧
    s.location document.source q.position = .ok location ∧
    found = .validation (row.name ++ " targets a nested list; add @" ++ "parentID" ++ " or @" ++
      "allLists") location

theorem isNested_iff (h : s.Sound G) (planted : s.Planted)
    (finds : ∀ l ∈ s.lists.rows, s.Finds l) {name : String} :
    Rule.isNested s name ↔ s.HasNestedList name := by
  have embedded : ∀ l ∈ s.lists.rows, l.embedded ↔
      ∃ d, s.documents.get? l.document = some d ∧ d.kind = .fragment := by
    intro l hl
    obtain ⟨d, hd, he⟩ := (finds l hl).embedded
    simp [he, hd]
  simp only [Rule.isNested, HasNestedList, namedLists, List.any_eq_true, List.mem_filter,
    Bool.and_eq_true, Bool.or_eq_true, beq_iff_eq, isUnderList_iff h planted]
  constructor
  · rintro ⟨l, hl, ⟨rfl, named⟩, place⟩
    exact ⟨l, ⟨hl, named⟩, rfl, place.imp_left (embedded l hl).mp⟩
  · rintro ⟨l, ⟨hl, named⟩, rfl, place⟩
    exact ⟨l, hl, ⟨rfl, named⟩, place.imp_left (embedded l hl).mpr⟩

/-- Whether the rule reports a spread of this name. -/
def misses (s : Store) (x : Int) (name : String) : Bool :=
  (Rule.updatedList? name).any (Rule.isNested s) && !s.hasDirective x Framework.parentIdTag &&
    !s.hasDirective x Framework.allListsTag

theorem unaimed_iff (nested : ∀ name, Rule.isNested s name ↔ s.HasNestedList name)
    {q : Placement} {row : SelectionRow} (hrow : s.selections.get? q.child = some row) :
    s.Unaimed q ↔ row.kind = .fragment ∧ s.misses q.child row.name := by
  have carries : ∀ name, s.hasDirective q.child name = false ↔
      ∀ u ∈ s.selectionDirectives.uses.rows, u.owner = q.child → u.name ≠ name := by
    intro name
    simp [hasDirective, DirectiveTables.has, directives]
  simp only [misses, Bool.and_eq_true, Bool.not_eq_true', carries, Option.any_eq_true,
    Rule.updatedList?_eq_some, nested]
  constructor
  · rintro ⟨row', hrow', hk, ⟨name, ending, hm, hname, list⟩, free⟩
    obtain rfl := Option.some.inj (hrow.symm.trans hrow')
    exact ⟨hk, ⟨⟨name, ⟨ending, hm, hname⟩, list⟩, fun u hu ho => (free u hu ho).1⟩,
      fun u hu ho => (free u hu ho).2⟩
  · rintro ⟨hk, ⟨⟨name, ⟨ending, hm, hname⟩, list⟩, parent⟩, all⟩
    exact ⟨row, hrow, hk, ⟨name, ending, hm, hname, list⟩,
      fun u hu ho => ⟨parent u hu ho, all u hu ho⟩⟩

/-- The spread that a placement places. -/
def spreadUse? (s : Store) (q : Placement) : Option Use :=
  (match s.selections.get? q.child, s.documents.get? q.document with
    | some row, some d => some ⟨q.child, row, q.document, d, q.parent?, q.position⟩
    | _, _ => none : Option Use).filter (·.selection.kind = .fragment)

theorem spreadUse?_eq {q : Placement} {row : SelectionRow} {d : DocumentRow}
    (hrow : s.selections.get? q.child = some row) (hd : s.documents.get? q.document = some d) :
    s.spreadUse? q = if row.kind = .fragment then
      some ⟨q.child, row, q.document, d, q.parent?, q.position⟩ else none := by
  simp only [spreadUse?, hrow, hd, Option.filter_some, decide_eq_true_eq]

theorem spreadUses_eq (s : Store) : s.spreadUses = s.placements.rows.filterMap s.spreadUse? :=
  List.filter_filterMap ..

/-- Each spread is placed once, so the rule looks at the spreads as they are placed. -/
theorem Planted.onePerSpot_spreadUses (h : s.Planted) :
    onePerSpot (sortBy (fun a b => decide (a.id ≤ b.id)) s.spreadUses) = s.spreadUses := by
  have ascending : s.spreadUses.Pairwise fun a b => a.id < b.id := by
    rw [spreadUses_eq]
    refine List.Pairwise.filterMap _ (fun q q' hlt u hu u' hu' => ?_) h.ascending
    have id_eq : ∀ {q : Placement} {u : Use}, s.spreadUse? q = some u → u.id = q.child := by
      intro q u hu
      obtain ⟨hu, _⟩ := Option.filter_eq_some_iff.mp hu
      split at hu
      · cases hu
        rfl
      · cases hu
    rwa [id_eq hu, id_eq hu']
  rw [sortBy_eq_self (ascending.imp fun hlt => decide_eq_true (Int.le_of_lt hlt)), onePerSpot]
  apply distinctBy_eq_self
  refine ascending.imp fun hlt same => ?_
  rw [Prod.mk.injEq] at same
  omega

theorem reportEach_cons_none {u : Use} {us : List Use} {problem? : Use → Option String}
    (h : problem? u = none) : s.reportEach (u :: us) problem? = s.reportEach us problem? := by
  simp only [reportEach, List.filterMap_cons, h, Option.map_none]

theorem reportEach_cons_some {u : Use} {us : List Use} {problem? : Use → Option String}
    {message : String} {location : Location} {found : Diagnostics} (h : problem? u = some message)
    (here : s.useLocation u = .ok location) (rest : s.reportEach us problem? = .ok found) :
    s.reportEach (u :: us) problem? = .ok (.validation message location :: found) := by
  have first : s.report u message = .ok (.validation message location) := by
    rw [report, here]
    rfl
  rw [reportEach] at rest ⊢
  simp only [List.filterMap_cons, h, Option.map_some, List.mapM_cons, first]
  rw [rest]
  rfl

/-- What the rule has to say about a use. -/
def aimProblem? (s : Store) (u : Use) : Option String :=
  if s.misses u.id u.selection.name then
    some (u.selection.name ++ " targets a nested list; add @" ++ Framework.parentIdTag ++ " or @" ++
      Framework.allListsTag)
  else none

/-- One report is made for each unaimed spread, in the order in which they are placed. -/
theorem reportEach_unaimed (hs : s.Closed)
    (nested : ∀ name, Rule.isNested s name ↔ s.HasNestedList name) (qs : List Placement)
    (hqs : ∀ q ∈ qs, q ∈ s.placements.rows) :
    ∃ found spreads, s.reportEach (qs.filterMap s.spreadUse?) s.aimProblem? = .ok found ∧
      spreads.Sublist qs ∧ (∀ q, q ∈ spreads ↔ q ∈ qs ∧ s.Unaimed q) ∧
      List.Forall₂ s.Reports spreads found := by
  induction qs with
  | nil => exact ⟨[], [], rfl, .slnil, by simp, .nil⟩
  | cons q qs ih =>
    obtain ⟨found, spreads, rest, sub, mem, reports⟩ :=
      ih fun q hq => hqs q (List.mem_cons_of_mem _ hq)
    obtain ⟨_, hchild, hdocument⟩ := hs.placements q (hqs q List.mem_cons_self)
    obtain ⟨row, hrow⟩ := contains_iff.mp hchild
    obtain ⟨document, hd⟩ := contains_iff.mp hdocument
    obtain ⟨source, hsource⟩ := contains_iff.mp
      (hs.documents document (mem_rows_of_get? hd))
    have aims := unaimed_iff nested hrow
    rw [List.filterMap_cons, spreadUse?_eq hrow hd]
    by_cases hk : row.kind = .fragment
    · rw [if_pos hk]
      by_cases hmiss : s.misses q.child row.name = true
      · have unaimed := aims.mpr ⟨hk, hmiss⟩
        have here : s.location document.source q.position = .ok
            (.ofPosition source.filepath source.offsetLine source.offsetColumn q.position) := by
          rw [Store.location, hsource]
        refine ⟨_, q :: spreads, reportEach_cons_some (if_pos hmiss) here rest, sub.cons_cons q,
          fun q' => ?_, .cons ⟨row, document, _, hrow, hd, here, rfl⟩ reports⟩
        rw [List.mem_cons, List.mem_cons, mem, or_and_right]
        exact or_congr_left ⟨fun h => ⟨h, h ▸ unaimed⟩, And.left⟩
      · refine ⟨found, spreads, (reportEach_cons_none (if_neg hmiss)).trans rest, sub.cons q,
          fun q' => ?_, reports⟩
        rw [mem, List.mem_cons, or_and_right, or_iff_right]
        rintro ⟨rfl, unaimed⟩
        exact hmiss (aims.mp unaimed).2
    · rw [if_neg hk]
      refine ⟨found, spreads, rest, sub.cons q, fun q' => ?_, reports⟩
      rw [mem, List.mem_cons, or_and_right, or_iff_right]
      rintro ⟨rfl, unaimed⟩
      exact hk (aims.mp unaimed).1

end Store

namespace Project

open Store

/-- Unless operations go to all lists by default, the rule reports each unaimed spread once, where it
stands, and nothing else. -/
theorem parent_id_exact {p : Project} {stage : Stage} {s : Store} (h : p.After stage s)
    (discovered : stage.discovered = true) (config : Config) :
    ∃ found, Rule.parentId.run config s = .ok (s, found) ∧
      (config.defaultListTarget = .all → found = []) ∧
      (config.defaultListTarget ≠ .all → ∃ spreads : List Placement, spreads.Nodup ∧
        (∀ q, q ∈ spreads ↔ q ∈ s.placements.rows ∧ s.Unaimed q) ∧
        List.Forall₂ s.Reports spreads found) := by
  have original := Stage.original_of_discovered discovered
  have ready := h.ready original
  have planted := h.planted original
  by_cases all : config.defaultListTarget = .all
  · refine ⟨[], ?_, fun _ => rfl, fun hne => absurd all hne⟩
    simp only [Rule.parentId, Rule.reading, all, if_true]
    rfl
  · obtain ⟨found, spreads, reported, sub, mem, reports⟩ := reportEach_unaimed ready.closed
      (fun _ => isNested_iff ready.toSound planted (h.finds discovered)) s.placements.rows
      fun _ hq => hq
    rw [← spreadUses_eq, ← planted.onePerSpot_spreadUses] at reported
    refine ⟨found, ?_, fun hall => absurd hall all, fun _ => ⟨spreads, ?_, mem, reports⟩⟩
    · simp only [Rule.parentId, Rule.reading, all, if_false]
      exact congrArg (fun x => x >>= fun found => Except.ok (s, found)) reported
    · exact sub.nodup (planted.ascending.imp fun hlt same => by rw [same] at hlt; omega)

/-- A list under a list, whose name ends like that of an operation. Of two spreads of an operation on
it one says that it means all lists. -/
def nestedLists : Project where
  config := { defaultListTarget := .all }
  schema := "type Query \x7b users: [User] \x7d type Mutation \x7b add: User \x7d
    type User \x7b id: ID friends: [User] \x7d"
  sources := [{
    filepath := "nested.graphql"
    content := "query Q \x7b users \x7b friends @list(name: \"Own_insert\") \x7b id \x7d \x7d \x7d
      mutation M \x7b add \x7b ...Own_insert_toggle ...Own_insert_remove @allLists \x7d \x7d" }]

set_option maxRecDepth 10000 in
def nestedListsSpelling : Spelling nestedLists := ⟨_, [_], rfl, rfl⟩

def reportsOne (s : Store) : Bool :=
  match Rule.parentId.run {} s with
  | .ok (_, found) => found.length = 1
  | .error _ => false

set_option maxRecDepth 100000 in
theorem nestedLists_reportsOne :
    (nestedListsSpelling.analysis?.any fun e => reportsOne e.2) := by
  decide +kernel

theorem nestedLists_parent_id_exact : ∃ s q found, nestedLists.After .rules s ∧
    q ∈ s.placements.rows ∧ s.Unaimed q ∧ s.Reports q found ∧
    Rule.parentId.run {} s = .ok (s, [found]) ∧
    Rule.parentId.run nestedLists.config s = .ok (s, []) := by
  obtain ⟨s₀, s, prepared, analysed, check⟩ :=
    nestedListsSpelling.exists_of_any nestedLists_reportsOne
  have after := Project.After.of_analyse prepared analysed
  obtain ⟨found, ran, _, aimed⟩ := parent_id_exact after rfl {}
  obtain ⟨none, silent, all, _⟩ := parent_id_exact after rfl nestedLists.config
  obtain ⟨spreads, _, mem, reports⟩ := aimed (by decide)
  rw [all rfl] at silent
  simp only [reportsOne, ran, decide_eq_true_eq] at check
  obtain ⟨d, rfl⟩ := List.length_eq_one_iff.mp check
  obtain ⟨q, rest, report, _, rfl⟩ := List.forall₂_cons_right_iff.mp reports
  obtain ⟨hq, unaimed⟩ := (mem q).mp List.mem_cons_self
  exact ⟨s, q, d, after, hq, unaimed, report, ran, silent⟩

end Project

end GraphDoc
