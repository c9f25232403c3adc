import GraphDoc.Proofs.ListOperation.Mirroring

/-!
# The fragments of a list

The fragments that record an entry mirror what their list selects of one, and all three bring key
fields of their own. What one list brings stays as it is when the next one comes.
-/

set_option autoImplicit false

namespace GraphDoc

open Relation Table

namespace SelectionNode

/-- The nodes of new fields of a type, numbered from `id` on. -/
def newFields (typeName : String) (id : Int) : List String → List SelectionNode
  | [] => []
  | field :: rest =>
    .node id (Store.fieldOf typeName field) [] [] [] :: newFields typeName (id + 1) rest

/-- The fields among some nodes that have no alias. -/
def plainFields (ns : List SelectionNode) : List String :=
  ns.filterMap fun n => if n.row.kind = .field && n.row.label?.isNone then some n.row.name else none

end SelectionNode

namespace Store

open SelectionNode

variable {s s' t t' u : Store} {G : Int → Prop} {d i : Int}

/-! ## Placements of a document -/

theorem Closed.map_placed (hs : s.Closed) (document : Int) : (s.placed document).map (·.1) =
    sortBy (fun a b => decide (a.index ≤ b.index))
      (s.placements.rows.filter (·.document = document)) := by
  rw [hs.placed_eq, List.map_map]
  exact List.map_id _

theorem Closed.below_eq (hs : s.Closed) (document : Int) (parent? : Option Int) :
    s.below document parent? =
      ((s.placed document).filter (·.1.parent? = parent?)).map (·.1.child) := by
  rw [below, placesAt, ← filter_byIndex, ← hs.map_placed, List.filter_map, List.map_map]
  rfl

theorem Closed.over_eq (hs : s.Closed) (document : Int) :
    Over (s.placed document) = s.Above document := by
  funext a b
  rw [Above, hs.below_eq, List.mem_map, Over, eq_iff_iff]
  constructor
  · rintro ⟨e, he, hparent, hchild⟩
    exact ⟨e, List.mem_filter.mpr ⟨he, decide_eq_true hparent⟩, hchild⟩
  · rintro ⟨e, he, hchild⟩
    obtain ⟨hm, hparent⟩ := List.mem_filter.mp he
    exact ⟨e, hm, of_decide_eq_true hparent, hchild⟩

theorem Closed.sorted_placed (hs : s.Closed) (document : Int) :
    (s.placed document).Pairwise fun e e' => e.1.index ≤ e'.1.index := by
  have sorted : (sortBy (fun a b => decide (a.index ≤ b.index))
      (s.placements.rows.filter (·.document = document))).Pairwise
        fun a b => decide (a.index ≤ b.index) = true := by
    apply sortBy_pairwise
    · intro a b
      simp only [decide_eq_true_eq]
      omega
    · intro a b c
      simp only [decide_eq_true_eq]
      omega
  rw [← hs.map_placed] at sorted
  exact (List.pairwise_map.mp sorted).imp of_decide_eq_true

theorem Planted.forested (h : s.Planted) (hs : s.Closed) (document : Int) :
    Forested (s.placed document) where
  once := by
    apply (List.pairwise_map (f := fun e : Placement × SelectionRow => e.1)
      (R := fun q q' : Placement => q.child ≠ q'.child)).mp
    rw [hs.map_placed]
    refine ((sortBy_perm ..).pairwise_iff fun hne => Ne.symm hne).mpr ?_
    exact (h.ascending.imp Int.ne_of_lt).filter _
  rises e he x hx := (h.rooted e.1 (mem_placed he).1 x hx).1

theorem below_of_append {more : List Placement} {parent? : Option Int}
    (rows : t.placements.rows = s.placements.rows ++ more)
    (others : ∀ q ∈ more, q.document = d → q.parent? ≠ parent?) :
    t.below d parent? = s.below d parent? := by
  have none_here : (more.filter (·.document = d)).filter (·.parent? = parent?) = [] := by
    apply List.filter_eq_nil_iff.mpr
    intro q hq hparent
    obtain ⟨hm, hd⟩ := List.mem_filter.mp hq
    exact others q hm (of_decide_eq_true hd) (of_decide_eq_true hparent)
  rw [below, below, placesAt, placesAt, rows, List.filter_append, List.filter_append, none_here,
    List.append_nil]

/-! ## Copies -/

theorem Closed.below_of_map (hs : s.Closed) {parent? : Option Int}
    {q : Placement × SelectionRow → Bool} {g : Placement × SelectionRow → Placement}
    (index : ∀ e, (g e).index = e.1.index) (child : ∀ e, (g e).child = e.1.child)
    (h : (t.placements.rows.filter (·.document = i)).filter (·.parent? = parent?) =
      ((s.placed d).filter q).map g) :
    t.below i parent? = ((s.placed d).filter q).map (·.1.child) := by
  have sorted : (((s.placed d).filter q).map g).Pairwise fun a b =>
      decide (a.index ≤ b.index) = true := by
    apply List.pairwise_map.mpr
    refine ((hs.sorted_placed d).filter q).imp fun {e e'} hle => ?_
    rw [index, index]
    exact decide_eq_true hle
  rw [below, placesAt, h, sortBy_eq_self sorted, List.map_map]
  exact List.map_congr_left fun e _ => child e

theorem copyBelow_mirrors (hs : s.Closed) (forest : Forested (s.placed d)) (x : Int)
    (fresh : ∀ q ∈ s.placements.rows, q.document ≠ i) (hne : d ≠ i) :
    (s.copyBelow d x i).Mirrors d (s.below d (some x)) i [] := by
  let copies := copiesBelow (s.placed d) i ((s.placed d).length + 1) x none
  have rows : (s.copyBelow d x i).placements.rows = s.placements.rows ++ copies :=
    rows_foldl_push ..
  have target : ∀ q ∈ copies, q.document = i := by
    intro q hq
    obtain ⟨rfl, _⟩ := mem_copiesBelow (by simp) hq
    rfl
  have here : (s.copyBelow d x i).placements.rows.filter (·.document = i) = copies := by
    rw [rows, List.filter_append, List.filter_eq_nil_iff.mpr, List.nil_append,
      List.filter_eq_self.mpr]
    · exact fun q hq => decide_eq_true (target q hq)
    · exact fun q hq => by simpa using fresh q hq
  have elsewhere : ∀ parent?, (s.copyBelow d x i).below d parent? = s.below d parent? :=
    fun _ => below_of_append rows fun q hq hd => absurd (hd.symm.trans (target q hq)) hne
  have above : (s.copyBelow d x i).Above d = s.Above d := above_congr elsewhere
  refine ⟨?_, fun c hc y hy => ?_, fun y hy => absurd hy List.not_mem_nil⟩
  · rw [List.append_nil, hs.below_eq d (some x)]
    refine hs.below_of_map (g := fun e => ⟨none, e.1.child, i, e.1.index, e.1.position⟩)
      (fun _ => rfl) (fun _ => rfl) ?_
    rw [here]
    exact filter_copiesBelow_none ..
  · rw [elsewhere, hs.below_eq d (some y)]
    refine hs.below_of_map (g := fun e => ⟨e.1.parent?, e.1.child, i, e.1.index, e.1.position⟩)
      (fun _ => rfl) (fun _ => rfl) ?_
    rw [here]
    refine forest.filter_copiesBelow ?_ (List.length_filter_le ..)
    rw [hs.over_eq]
    exact .head' hc (above ▸ hy)

/-! ## New fields -/

theorem le_foldl_max (is : List Int) (j : Int) :
    j ≤ is.foldl max j ∧ ∀ k ∈ is, k ≤ is.foldl max j := by
  induction is generalizing j with
  | nil => exact ⟨Int.le_refl j, fun _ hk => absurd hk List.not_mem_nil⟩
  | cons a is ih =>
    obtain ⟨first, rest⟩ := ih (max j a)
    rw [List.foldl_cons]
    refine ⟨Int.le_trans (Int.le_max_left j a) first, fun k hk => ?_⟩
    rcases List.mem_cons.mp hk with rfl | hk
    · exact Int.le_trans (Int.le_max_right j k) first
    · exact rest k hk

theorem mem_rootPlacements_iff {q : Placement} :
    q ∈ s.rootPlacements d ↔ q ∈ s.placesAt d none := by
  simp only [rootPlacements, placesAt, mem_sortBy_iff, List.mem_filter, Bool.and_eq_true,
    decide_eq_true_eq, Option.isNone_iff_eq_none, and_assoc]

theorem index_le_nextRootIndex {q : Placement} (hq : q ∈ s.placesAt d none) :
    q.index ≤ s.nextRootIndex d := by
  have hm : q.index ∈ (s.rootPlacements d).map (·.index) :=
    List.mem_map_of_mem (mem_rootPlacements_iff.mpr hq)
  rw [nextRootIndex]
  generalize (s.rootPlacements d).map (·.index) = indices at hm ⊢
  cases indices with
  | nil => cases hm
  | cons j is =>
    obtain ⟨first, rest⟩ := le_foldl_max is j
    rcases List.mem_cons.mp hm with heq | hm
    · simp only [heq]
      omega
    · have := rest _ hm
      simp only
      omega

section Fields

variable {copied new : List Int} {typeName : String} {p : Position}

theorem addField_mirrors (h : s.Mirrors d copied i new) (hne : d ≠ i)
    (known : ∀ q ∈ s.placements.rows, ∀ x, q.parent? = some x → x ≤ s.selections.issued)
    {index : Int} (last : ∀ q ∈ s.placesAt i none, q.index ≤ index) (row : SelectionRow) :
    ((s.addSelection row).1.addPlacement ⟨none, s.selections.nextId, i, index, p⟩).1.Mirrors d
      copied i (new ++ [s.selections.nextId]) := by
  have rows : ((s.addSelection row).1.addPlacement
      ⟨none, s.selections.nextId, i, index, p⟩).1.placements.rows =
      s.placements.rows ++ [⟨none, s.selections.nextId, i, index, p⟩] := rows_push ..
  have root : ((s.addSelection row).1.addPlacement
      ⟨none, s.selections.nextId, i, index, p⟩).1.below i none =
      s.below i none ++ [s.selections.nextId] := by
    have places := placesAt_addPlacement (s.addSelection row).1
      ⟨none, s.selections.nextId, i, index, p⟩ last
    rw [below, places, List.map_append]
    rfl
  generalize ((s.addSelection row).1.addPlacement
    ⟨none, s.selections.nextId, i, index, p⟩).1 = t at *
  have elsewhere : ∀ parent?, t.below d parent? = s.below d parent? := by
    intro parent?
    refine below_of_append rows fun q hq hd => ?_
    obtain rfl := List.mem_singleton.mp hq
    exact absurd hd.symm hne
  have under : ∀ x, t.below i (some x) = s.below i (some x) := by
    intro x
    refine below_of_append rows fun q hq _ => ?_
    obtain rfl := List.mem_singleton.mp hq
    exact (Option.some_ne_none x).symm
  have above : t.Above d = s.Above d := above_congr elsewhere
  refine ⟨?_, fun c hc y hy => ?_, fun y hy => ?_⟩
  · rw [root, h.roots, List.append_assoc]
  · rw [under, elsewhere]
    exact h.under c hc y (above ▸ hy)
  · rw [under]
    rcases List.mem_append.mp hy with hy | hy
    · exact h.bare y hy
    · -- Nothing is below a selection that has just come.
      obtain rfl := List.mem_singleton.mp hy
      apply List.eq_nil_iff_forall_not_mem.mpr
      intro x hx
      obtain ⟨q, hq, _, hparent, _⟩ := mem_below.mp hx
      have := known q hq _ hparent
      have := s.selections.issued_lt_nextId
      omega

theorem nextId_push (t : Table SelectionRow) (row : SelectionRow) :
    (t.push row).nextId = t.nextId + 1 := by
  rw [nextId, nextId, issued_push]
  rfl

theorem appendFields_mirrors (fields : List String) {s : Store} {new : List Int} (index : Int)
    (h : s.Mirrors d copied i new) (hne : d ≠ i)
    (known : ∀ q ∈ s.placements.rows, ∀ x, q.parent? = some x → x ≤ s.selections.issued)
    (last : ∀ q ∈ s.placesAt i none, q.index ≤ index) :
    (appendFields i typeName p index s fields).Mirrors d copied i
      (new ++ (newFields typeName s.selections.nextId fields).map (·.id)) := by
  induction fields generalizing s new index with
  | nil =>
    rw [newFields, List.map_nil, List.append_nil]
    exact h
  | cons field rest ih =>
    have added := addField_mirrors (p := p) h hne known last (fieldOf typeName field)
    have places := placesAt_addPlacement (s.addSelection (fieldOf typeName field)).1
      ⟨none, s.selections.nextId, i, index, p⟩ last
    have rows : ((s.addSelection (fieldOf typeName field)).1.addPlacement
        ⟨none, s.selections.nextId, i, index, p⟩).1.placements.rows =
        s.placements.rows ++ [⟨none, s.selections.nextId, i, index, p⟩] := rows_push ..
    have more := ih (index + 1) added (fun q hq x hx => ?_) fun q hq => ?_
    · rw [newFields, List.map_cons, List.append_cons, ← nextId_push s.selections]
      exact more
    · rw [rows] at hq
      rcases List.mem_append.mp hq with hq | hq
      · have := known q hq x hx
        show x ≤ ((s.selections.push _).issued : Int)
        rw [issued_push]
        omega
      · obtain rfl := List.mem_singleton.mp hq
        cases hx
    · rw [places] at hq
      rcases List.mem_append.mp hq with hq | hq
      · have := last q hq
        omega
      · obtain rfl := List.mem_singleton.mp hq
        show index ≤ index + 1
        omega

theorem grows_appendFields (fields : List String) (index : Int) (s : Store) :
    Table.Grows (fun _ => True) s.selections
      (appendFields i typeName p index s fields).selections := by
  induction fields generalizing s index with
  | nil => exact .refl
  | cons field rest ih =>
    have added : Table.Grows (fun _ => True) s.selections
        (s.selections.push (fieldOf typeName field)) := .push .refl trivial
    exact added.trans (ih (index + 1) ((s.addSelection (fieldOf typeName field)).1.addPlacement
      ⟨none, s.selections.nextId, i, index, p⟩).1)

theorem get?_appendFields (fields : List String) {index : Int} (s : Store) :
    ∀ n ∈ newFields typeName s.selections.nextId fields,
      (appendFields i typeName p index s fields).selections.get? n.id = some n.row := by
  induction fields generalizing s index with
  | nil => exact fun _ hn => absurd hn List.not_mem_nil
  | cons field rest ih =>
    intro n hn
    rcases List.mem_cons.mp hn with rfl | hn
    · apply (grows_appendFields rest (index + 1) _).get?_of_get?
      exact get?_push_nextId ..
    · rw [← nextId_push s.selections (fieldOf typeName field)] at hn
      exact ih (s := ((s.addSelection (fieldOf typeName field)).1.addPlacement
        ⟨none, s.selections.nextId, i, index, p⟩).1) n hn

end Fields

/-! ## Plain fields -/

/-- The fields among some selections that have no alias. -/
def plainNames (s : Store) (xs : List Int) : List String :=
  xs.filterMap fun x => (s.selections.get? x).bind fun row =>
    if row.kind = .field && row.label?.isNone then some row.name else none

theorem plainNames_congr {xs : List Int}
    (h : ∀ x ∈ xs, s'.selections.get? x = s.selections.get? x) :
    s'.plainNames xs = s.plainNames xs :=
  List.filterMap_congr fun x hx => by rw [h x hx]

theorem mem_plainRootFields_iff {field : String} :
    field ∈ s.plainRootFields d ↔ field ∈ s.plainNames (s.below d none) := by
  simp only [plainRootFields, plainNames, below, List.filterMap_map, List.mem_filterMap,
    mem_rootPlacements_iff, Function.comp_apply]

theorem plainFields_of_mapM {xs : List Int} {depth : Nat} {ns : List SelectionNode}
    (here : ∀ x ∈ xs, s.selections.contains x)
    (h : xs.mapM (s.nodeFor d depth) = .ok ns) : plainFields ns = s.plainNames xs := by
  induction xs generalizing ns with
  | nil =>
    cases h
    rfl
  | cons x xs ih =>
    obtain ⟨hx, here⟩ := List.forall_mem_cons.mp here
    rw [List.mapM_cons] at h
    obtain ⟨n, hn, h⟩ := bind_eq_ok.mp h
    obtain ⟨rest, hrest, h⟩ := bind_eq_ok.mp h
    cases h
    obtain ⟨row, hrow⟩ := contains_iff.mp hx
    have same : n.row = row := by
      rw [(nodeFor_eq_ok hn).2, SelectionNode.row, hrow]
      rfl
    have others := ih here hrest
    rw [plainFields, plainNames] at others
    rw [plainFields, plainNames, List.filterMap_cons, List.filterMap_cons, others, same, hrow]
    rfl

theorem Closed.contains_of_mem_below (hs : s.Closed) {parent? : Option Int} {x : Int}
    (hx : x ∈ s.below d parent?) : s.selections.contains x := by
  obtain ⟨q, hq, _, _, rfl⟩ := mem_below.mp hx
  exact (hs.placements q hq).2.1

/-! ## What a list brings -/

/-- The identifying fields that a list does not select of its records. -/
def missingFields (s : Store) (l : ListRow) : List String :=
  (s.identifyingFields l.nodeType).filter
    (· ∉ s.plainNames (s.below l.document (some l.node)))

/-- A fragment of a list: it shows `copied` as the document of the list does, and new fields. -/
structure Brings (s t : Store) (l : ListRow) (ending : String) (copied : List Int)
    (fields : List String) (i : Int) : Prop where
  row : t.documents.get? i = some (listFragment l (s.listPosition l) ending)
  shows : ∃ first : Int, (s.selections.issued : Int) < first ∧
    t.Mirrors l.document copied i ((newFields l.nodeType first fields).map (·.id)) ∧
    ∀ n ∈ newFields l.nodeType first fields, t.selections.get? n.id = some n.row

/-- The three fragments of a list, after document `n`. -/
structure Operates (s t : Store) (l : ListRow) (n : Int) : Prop where
  insert : Brings s t l Framework.insertEnding (s.below l.document (some l.node))
    (s.missingFields l) (n + 1)
  toggle : Brings s t l Framework.toggleEnding (s.below l.document (some l.node))
    (s.missingFields l) (n + 2)
  remove : Brings s t l Framework.removeEnding [] (s.identifyingFields l.nodeType) (n + 3)

section

variable {n : Nat} {Field : SelectionRow → Prop} {l : ListRow} {ending : String}
  {copied : List Int} {fields : List String}

theorem Generated.filter_placements (h : Generated n Field s t) (hd : d ≤ n) :
    t.placements.rows.filter (·.document = d) = s.placements.rows.filter (·.document = d) := by
  refine h.borrowed.filter_rows (q := fun q => decide (q.document = d)) fun q hq => ?_
  have := hq.document
  exact decide_eq_false (by omega)

theorem Generated.below (h : Generated n Field s t) (hd : d ≤ n) (parent? : Option Int) :
    t.below d parent? = s.below d parent? :=
  below_of_filter (h.filter_placements hd) parent?

theorem Generated.placed (h : Generated n Field s t) (hs : s.Closed) (hd : d ≤ n) :
    t.placed d = s.placed d := by
  rw [Store.placed, Store.placed, h.filter_placements hd]
  refine List.filterMap_congr fun q hq => ?_
  have hm := (List.mem_filter.mp ((mem_sortBy_iff ..).mp hq)).1
  rw [h.selections.get?_of_le (le_issued_of_contains (hs.placements q hm).2.1)]

theorem Brings.grow (h : Brings s t l ending copied fields i)
    (g : Generated t.documents.issued Field t t') (hd : l.document ≤ t.documents.issued) :
    Brings s t' l ending copied fields i := by
  obtain ⟨row, first, fresh, mirrors, rows⟩ := h
  refine ⟨g.documents.get?_of_get? row, first, fresh, mirrors.congr (g.below hd)
    (g.below (le_issued row)), fun n hn => g.selections.get?_of_get? (rows n hn)⟩

theorem Operates.grow {m : Int} (h : Operates s t l m) (g : Generated t.documents.issued Field t t')
    (hd : l.document ≤ t.documents.issued) : Operates s t' l m :=
  ⟨h.insert.grow g hd, h.toggle.grow g hd, h.remove.grow g hd⟩

/-- The store while list operations are generated from `s`. -/
structure Growing (s u : Store) : Prop where
  generating : Generating (Beyond s.documents.issued) s u
  generated : Generated s.documents.issued (fun _ => True) s u

theorem mirrors_nil (d : Int) (fresh : ∀ q ∈ s.placements.rows, q.document ≠ i) :
    s.Mirrors d [] i [] := by
  refine ⟨?_, fun c hc => absurd hc List.not_mem_nil, fun y hy => absurd hy List.not_mem_nil⟩
  apply List.eq_nil_iff_forall_not_mem.mpr
  intro x hx
  obtain ⟨q, hq, hd, _⟩ := mem_below.mp hx
  exact fresh q hq hd

theorem Closed.fresh (hs : s.Closed) :
    ∀ q ∈ s.placements.rows, q.document ≠ s.documents.nextId := by
  intro q hq he
  have := le_issued_of_contains (hs.placements q hq).2.2
  have := s.documents.issued_lt_nextId
  omega

theorem Mirrors.brings (h : t.Mirrors l.document copied i []) (ht : t.Closed)
    (hne : l.document ≠ i) (issued : s.selections.issued ≤ t.selections.issued)
    (row : t.documents.get? i = some (listFragment l (s.listPosition l) ending))
    (fields : List String) : Brings s (appendFields i l.nodeType (s.listPosition l)
      (t.nextRootIndex i) t fields) l ending copied fields i := by
  have known : ∀ q ∈ t.placements.rows, ∀ x, q.parent? = some x → x ≤ t.selections.issued :=
    fun q hq x hx => le_issued_of_contains ((ht.placements q hq).1 x hx)
  refine ⟨?_, t.selections.nextId, ?_, ?_, get?_appendFields fields t⟩
  · rw [documents_appendFields]
    exact row
  · have := t.selections.issued_lt_nextId
    omega
  · exact appendFields_mirrors fields _ h hne known fun q hq => index_le_nextRootIndex hq

/-- A fragment with what its list selects, before its new fields come. -/
def copiedFragment (s : Store) (l : ListRow) (p : Position) (ending : String) : Store :=
  (s.addListFragment l p ending).1.copyBelow l.document l.node s.documents.nextId

theorem addRecordFragment_eq (l : ListRow) (p : Position) (s : Store) (ending : String) :
    addRecordFragment l p s ending =
      appendFields s.documents.nextId l.nodeType p
        ((s.copiedFragment l p ending).nextRootIndex s.documents.nextId)
        (s.copiedFragment l p ending)
        (((s.copiedFragment l p ending).identifyingFields l.nodeType).filter
          (· ∉ (s.copiedFragment l p ending).plainRootFields s.documents.nextId)) := rfl

section

variable (h : Growing s u) (hl : s.Roots l)
include h hl

theorem Growing.document_ne : l.document ≠ u.documents.nextId := by
  have := le_issued_of_contains hl.document
  have := h.generated.documents.issued_le
  have := u.documents.issued_lt_nextId
  omega

theorem copiedFragment_mirrors (hs : s.Closed) (planted : s.Planted) (ending : String) :
    (u.copiedFragment l (s.listPosition l) ending).Closed ∧
    (u.copiedFragment l (s.listPosition l) ending).Mirrors l.document
      (s.below l.document (some l.node)) u.documents.nextId [] := by
  have old : l.document ≤ s.documents.issued := le_issued_of_contains hl.document
  have source : u.sources.contains l.source := h.generating.sources ▸ hl.source
  have added := addListFragment_generating h.generating.ready source (s.listPosition l) ending
  have copied := copyBelow_generating added.ready l.document l.node
    (beyond_nextId h.generating.issued) (contains_push_nextId ..)
  -- The document of the list is as it was, so its selections can be copied one by one.
  have forest : Forested ((u.addListFragment l (s.listPosition l) ending).1.placed l.document) := by
    have same : (u.addListFragment l (s.listPosition l) ending).1.placed l.document =
        s.placed l.document := h.generated.placed hs old
    rw [same]
    exact planted.forested hs l.document
  have mirrors := copyBelow_mirrors added.ready.closed forest l.node
    h.generating.ready.closed.fresh (h.document_ne hl)
  have shown : (u.addListFragment l (s.listPosition l) ending).1.below l.document (some l.node) =
      s.below l.document (some l.node) := h.generated.below old _
  rw [shown] at mirrors
  exact ⟨copied.ready.closed, mirrors⟩

theorem addRecordFragment_brings (hs : s.Closed) (planted : s.Planted) (ending : String) :
    Brings s (addRecordFragment l (s.listPosition l) u ending) l ending
      (s.below l.document (some l.node)) (s.missingFields l) u.documents.nextId := by
  obtain ⟨closed, mirrors⟩ := copiedFragment_mirrors h hl hs planted ending
  have identifying : (u.copiedFragment l (s.listPosition l) ending).identifyingFields l.nodeType =
      s.identifyingFields l.nodeType := h.generated.identifyingFields l.nodeType
  have plain : (u.copiedFragment l (s.listPosition l) ending).plainNames
      (s.below l.document (some l.node)) = s.plainNames (s.below l.document (some l.node)) :=
    plainNames_congr fun x hx => h.generated.selections.get?_of_le
      (le_issued_of_contains (hs.contains_of_mem_below hx))
  -- What is selected without an alias is known from the copies at the root.
  have missing : ((u.copiedFragment l (s.listPosition l) ending).identifyingFields
      l.nodeType).filter (· ∉ (u.copiedFragment l (s.listPosition l) ending).plainRootFields
        u.documents.nextId) = s.missingFields l := by
    rw [identifying, missingFields]
    refine List.filter_congr fun field _ => ?_
    rw [decide_eq_decide, mem_plainRootFields_iff, mirrors.roots, List.append_nil, plain]
  have brings := mirrors.brings (s := s) closed (h.document_ne hl)
    h.generated.selections.issued_le (get?_push_nextId ..) (s.missingFields l)
  rw [addRecordFragment_eq, missing]
  exact brings

theorem addRemoveFragment_brings :
    Brings s (addRemoveFragment l (s.listPosition l) u) l Framework.removeEnding []
      (s.identifyingFields l.nodeType) u.documents.nextId := by
  have source : u.sources.contains l.source := h.generating.sources ▸ hl.source
  have added := addListFragment_generating h.generating.ready source (s.listPosition l)
    Framework.removeEnding
  have empty : (u.addListFragment l (s.listPosition l) Framework.removeEnding).1.Mirrors l.document
      [] u.documents.nextId [] := mirrors_nil _ h.generating.ready.closed.fresh
  have brings := empty.brings (s := s) added.ready.closed (h.document_ne hl)
    h.generated.selections.issued_le (get?_push_nextId ..) (s.identifyingFields l.nodeType)
  rw [← h.generated.identifyingFields l.nodeType] at brings ⊢
  exact brings

theorem Growing.record (ending : String) (p : Position) :
    Growing s (addRecordFragment l p u ending) where
  generating := h.generating.trans (addRecordFragment_generating h.generating.ready
    (h.generating.sources ▸ hl.source) (beyond_nextId h.generating.issued) ending)
  generated := h.generated.trans
    (addRecordFragment_generated h.generating.issued (fun _ _ => trivial) ending)

theorem Growing.remove (p : Position) : Growing s (addRemoveFragment l p u) where
  generating := h.generating.trans (addRemoveFragment_generating h.generating.ready
    (h.generating.sources ▸ hl.source) (beyond_nextId h.generating.issued))
  generated := h.generated.trans
    (addRemoveFragment_generated h.generating.issued fun _ _ => trivial)

theorem Growing.list : Growing s (u.addListOperations l) where
  generating := h.generating.trans (addListOperations_generating h.generating.ready
    h.generating.issued (h.generating.sources ▸ hl.source))
  generated := h.generated.trans
    (addListOperations_generated h.generating.issued fun _ _ => trivial)

/-- A list keeps its position, since its field is placed before anything is generated. -/
theorem Growing.listPosition : u.listPosition l = s.listPosition l := by
  obtain ⟨q, hq, hchild, hdocument⟩ := hl.placed
  have rows : s.placements.rows <+: u.placements.rows :=
    h.generated.borrowed.entries_prefix.map _
  have found : (s.placements.rows.find? fun q =>
      q.child = l.listField && q.document = l.document).isSome := by
    apply List.find?_isSome.mpr
    exact ⟨q, hq, by simp [hchild, hdocument]⟩
  obtain ⟨q', hq'⟩ := Option.isSome_iff_exists.mp found
  rw [Store.listPosition, Store.listPosition, hq', rows.find?_eq_some hq']

theorem addListOperations_operates (hs : s.Closed) (planted : s.Planted) :
    Operates s (u.addListOperations l) l u.documents.issued := by
  have old : ∀ {t : Store}, Growing s t → l.document ≤ t.documents.issued := by
    intro t ht
    have := le_issued_of_contains hl.document
    have := ht.generating.issued
    omega
  rw [addListOperations, h.listPosition hl, List.foldl_cons, List.foldl_cons, List.foldl_nil]
  have insert := addRecordFragment_brings h hl hs planted Framework.insertEnding
  have inserted := h.record hl Framework.insertEnding (s.listPosition l)
  have documents := documents_addRecordFragment l (s.listPosition l) u Framework.insertEnding
  generalize addRecordFragment l (s.listPosition l) u Framework.insertEnding = u₁ at *
  have toggle := addRecordFragment_brings inserted hl hs planted Framework.toggleEnding
  have toggled := inserted.record hl Framework.toggleEnding (s.listPosition l)
  have documents' := documents_addRecordFragment l (s.listPosition l) u₁ Framework.toggleEnding
  have grows : Generated u₁.documents.issued (fun _ => True) u₁ _ :=
    addRecordFragment_generated (l := l) (p := s.listPosition l) (Nat.le_refl _)
      (fun _ _ => trivial) Framework.toggleEnding
  generalize addRecordFragment l (s.listPosition l) u₁ Framework.toggleEnding = u₂ at *
  have remove := addRemoveFragment_brings toggled hl
  have removed := toggled.remove hl (s.listPosition l)
  have grows' : Generated u₂.documents.issued (fun _ => True) u₂ _ :=
    addRemoveFragment_generated (l := l) (p := s.listPosition l) (Nat.le_refl _)
      fun _ _ => trivial
  generalize addRemoveFragment l (s.listPosition l) u₂ = u₃ at *
  have grows'' : Generated u₃.documents.issued (fun _ => True) u₃
    (u₃.addDeleteDirective l.nodeType) := addDeleteDirective_generated u₃ l.nodeType
  have first : u.documents.nextId = u.documents.issued + 1 := rfl
  have second : u₁.documents.nextId = u.documents.issued + 2 := by
    rw [documents, nextId, issued_push]
    omega
  have third : u₂.documents.nextId = u.documents.issued + 3 := by
    rw [documents', documents, nextId, issued_push, issued_push]
    omega
  rw [first] at insert
  rw [second] at toggle
  rw [third] at remove
  exact
    { insert := ((insert.grow grows (old inserted)).grow grows' (old toggled)).grow grows''
        (old removed)
      toggle := (toggle.grow grows' (old toggled)).grow grows'' (old removed)
      remove := remove.grow grows'' (old removed) }

end

end

/-! ## All lists -/

theorem foldl_addListOperations_generated (ls : List ListRow) (s : Store) :
    Generated s.documents.issued (fun _ => True) s (ls.foldl addListOperations s) :=
  List.foldlRecOn (motive := Generated s.documents.issued (fun _ => True) s) ls _ (.refl ..)
    fun _ ht _ _ => ht.trans (addListOperations_generated ht.documents.issued_le
      fun _ _ => trivial)

theorem issued_addListOperations (s : Store) (l : ListRow) :
    (s.addListOperations l).documents.issued = s.documents.issued + 3 := by
  simp only [addListOperations, documents_addDeleteDirective, documents_addRemoveFragment,
    List.foldl_cons, List.foldl_nil, documents_addRecordFragment, issued_push]

/-- List after list brings its fragments. -/
theorem foldl_addListOperations_operates (hs : s.Closed) (planted : s.Planted)
    (ls : List ListRow) {u : Store} (h : Growing s u) (hls : ∀ l ∈ ls, s.Roots l) :
    (ls.foldl addListOperations u).documents.rows = u.documents.rows ++
      ls.flatMap (fun l => Framework.operationEndings.map (listFragment l (s.listPosition l))) ∧
    ∀ (k : Nat) l, ls[k]? = some l →
      Operates s (ls.foldl addListOperations u) l (u.documents.issued + 3 * k) := by
  induction ls generalizing u with
  | nil => exact ⟨(List.append_nil _).symm, fun k l hl => by cases hl⟩
  | cons l ls ih =>
    obtain ⟨hl, hls⟩ := List.forall_mem_cons.mp hls
    obtain ⟨rows, later⟩ := ih (h.list hl) hls
    constructor
    · rw [List.foldl_cons, rows, rows_addListOperations, h.listPosition hl, List.append_assoc,
        List.flatMap_cons]
    · intro k l' hl'
      rw [List.foldl_cons]
      cases k with
      | zero =>
        obtain rfl : l = l' := Option.some.inj hl'
        have here := addListOperations_operates h hl hs planted
        have old := le_issued_of_contains
          ((h.list hl).generating.documents _ hl.document)
        rw [show (u.documents.issued : Int) + 3 * ((0 : Nat) : Int) = u.documents.issued by omega]
        exact here.grow (foldl_addListOperations_generated ls _) old
      | succ k =>
        have there := later k l' hl'
        rw [issued_addListOperations] at there
        rw [show (u.documents.issued : Int) + 3 * ((k + 1 : Nat) : Int) =
          ((u.documents.issued + 3 : Nat) : Int) + 3 * (k : Int) by omega]
        exact there

end Store

end GraphDoc
