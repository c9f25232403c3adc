import GraphDoc.Proofs.Analysis
import GraphDoc.Proofs.Store.Trees

/-!
# Rewriting keeps the store ready

Pagination moves literals from field arguments to defaults, and the spreads of component fields move
field arguments to directives; either way a value leaves one owner before it gets another. The
fragments that are generated for a list borrow the list's selections.
-/

set_option autoImplicit false

namespace GraphDoc

open Table

namespace Store

open Grammar

variable {s s' s'' : Store} {G : Int → Prop}

/-! ## Pagination -/

/-- What is kept while lists are paginated. -/
structure Paging (s t : Store) : Prop where
  ready : t.Ready NoBorrowers
  rest : t = { s with
    documentDirectives := t.documentDirectives, declarations := t.declarations
    fieldArguments := t.fieldArguments, values := t.values, valueLinks := t.valueLinks }

theorem Paging.refl (h : s.Ready NoBorrowers) : Paging s s := ⟨h, rfl⟩

theorem Paging.trans (h : Paging s s') (h' : Paging s' s'') : Paging s s'' :=
  ⟨h'.ready, by rw [h'.rest, h.rest]⟩

theorem Paging.roots (h : Paging s s') {l : ListRow} (hl : s.Roots l) : s'.Roots l := by
  rw [h.rest]
  exact ⟨hl.source, hl.document, hl.listField, hl.node, hl.placed⟩

theorem Roots.admits {l : ListRow} (hl : s.Roots l) (h : s.Ready NoBorrowers) :
    s.Admits NoBorrowers .selection l.listField l.document := by
  intro p hp hx _
  obtain ⟨q, hq, hchild, hdocument⟩ := hl.placed
  exact (h.homed p hp q hq (hx.trans hchild.symm) id id).trans hdocument

/-- A value that waits for an owner. -/
structure Loose (s : Store) (value : Int) : Prop where
  here : s.values.contains value = true
  free : s.Unowned value
  written : (s.read value).Written

theorem passVariable_paging (h : s.Ready NoBorrowers) {l : ListRow} (hl : s.Roots l)
    (p : Position) {name : String} (hn : IsName name) (type : TypeRef) :
    Paging s (s.passVariable l p name type) ∧
    ∀ v, s.Loose v → (s.passVariable l p name type).Loose v := by
  have hw : (Value.leaf .var name).Written := ⟨.var name, .var hn, rfl⟩
  have added := h.addValue hl.document p (some type) hw
  have same := SameNames.of_revalues added.adds.rest
  refine ⟨⟨?_, rfl⟩, fun v hv => ?_⟩
  · exact (added.ready h).addFieldArgument (same.selections ▸ hl.listField) added.here added.free
      ((same.admits (hl.admits h)).houses added.document)
      ((congrArg Value.Written added.reads).mpr hw)
  · have hle := le_issued_of_contains hv.here
    refine ⟨added.adds.values.contains hv.here, fun o ho => ?_, ?_⟩
    · rw [passVariable, owns_addFieldArgument] at ho
      split at ho
      · have he : s.values.nextId = v := Option.some.inj ho
        have := s.values.issued_lt_nextId
        omega
      · exact added.adds.unowned hle hv.free o ho
    · have old : (s.passVariable l p name type).read v = s.read v := by
        rw [← added.read_old h.toSound hv.here]
        apply read_of_tables <;> rfl
      exact old ▸ hv.written

theorem declareWithDefault_paging (h : s.Ready NoBorrowers) {document : Int}
    (hd : s.documents.contains document) (p : Position) (name : String) (type : TypeRef)
    {default? : Option Int} (hv : ∀ v, default? = some v → s.Loose v) :
    Paging s (s.declareWithDefault document p name type default?) := by
  rw [declareWithDefault]
  split
  · refine ⟨h.addVariable hd id fun v he => ?_, rfl⟩
    exact ⟨(hv v he).here, (hv v he).free, (hv v he).written⟩
  · refine ⟨h.modifyDeclaration (fun _ => rfl) fun v _ => ?_, rfl⟩
    cases hdef : v.default? with
    | some d => exact .inl (by simp)
    | none =>
      cases default? with
      | none => exact .inl (by simp)
      | some d =>
        have loose := hv d rfl
        exact .inr ⟨d, by simp, loose.here, loose.free, loose.written⟩

theorem isName_of_mem_pageArguments {l : ListRow} {a : String × String}
    (h : a ∈ l.pageArguments) : IsName a.1 := by
  have hm : a.1 ∈ ["first", "after", "last", "before", "limit", "offset"] := by
    unfold ListRow.pageArguments at h
    split at h
    · rcases List.mem_append.mp h with h | h
      all_goals
        obtain ⟨_, h⟩ := List.mem_ite_nil_right.mp h
        simp only [List.mem_cons, List.not_mem_nil, or_false] at h
        rcases h with rfl | rfl <;> simp
    · simp only [List.mem_cons, List.not_mem_nil, or_false] at h
      rcases h with rfl | rfl <;> simp
  simp only [List.mem_cons, List.not_mem_nil, or_false] at hm
  rcases hm with he | he | he | he | he | he <;> rw [he]
  · exact ⟨'f', ['i', 'r', 's', 't'], rfl, rfl, List.all_eq_true.mp (by decide)⟩
  · exact ⟨'a', ['f', 't', 'e', 'r'], rfl, rfl, List.all_eq_true.mp (by decide)⟩
  · exact ⟨'l', ['a', 's', 't'], rfl, rfl, List.all_eq_true.mp (by decide)⟩
  · exact ⟨'b', ['e', 'f', 'o', 'r', 'e'], rfl, rfl, List.all_eq_true.mp (by decide)⟩
  · exact ⟨'l', ['i', 'm', 'i', 't'], rfl, rfl, List.all_eq_true.mp (by decide)⟩
  · exact ⟨'o', ['f', 'f', 's', 'e', 't'], rfl, rfl, List.all_eq_true.mp (by decide)⟩

theorem passedArgument?_eq_some {selection id value : Int} {name : String} {row : ValueRow}
    (h : s.passedArgument? selection name = some (id, value, row)) :
    ∃ a, s.fieldArguments.get? id = some a ∧ a.value = value := by
  obtain ⟨⟨n, a⟩, hm, h⟩ := List.exists_of_findSome?_eq_some h
  simp only [Option.ite_none_right_eq_some] at h
  obtain ⟨v, _, he⟩ := Option.map_eq_some_iff.mp h.2
  cases he
  exact ⟨a, get?_of_mem (List.mem_filter.mp hm).1, rfl⟩

theorem Ready.loose_of_eraseArgument (h : s.Ready G) {id : Int} {a : FieldArgument}
    (ha : s.fieldArguments.get? id = some a) :
    Loose { s with fieldArguments := s.fieldArguments.erase id } a.value := by
  have owned : s.owns (.argument id) = some a.value := Option.map_eq_some_iff.mpr ⟨a, ha, rfl⟩
  have same : read { s with fieldArguments := s.fieldArguments.erase id } a.value =
      s.read a.value := by
    apply read_of_tables <;> rfl
  refine ⟨h.closed.contains_of_owns owned, unowned_of_eraseArgument h.toSound ha, ?_⟩
  exact same ▸ h.written (.argument id) a.value (fun hc => hc) owned

theorem bindPageArgument_paging (h : s.Ready NoBorrowers) {l : ListRow} (hl : s.Roots l)
    (p : Position) {argument : String × String} (ha : argument ∈ l.pageArguments) :
    Paging s (bindPageArgument l p s argument) := by
  have hn := isName_of_mem_pageArguments ha
  rw [bindPageArgument]
  split
  · obtain ⟨passed, _⟩ := passVariable_paging h hl p hn ⟨argument.2, ""⟩
    exact passed.trans (declareWithDefault_paging passed.ready (passed.roots hl).document p _ _
      nofun)
  · next id value row hpassed =>
    split
    · exact .refl h
    · obtain ⟨a, hget, rfl⟩ := passedArgument?_eq_some hpassed
      have erased : Paging s { s with fieldArguments := s.fieldArguments.erase id } :=
        ⟨h.eraseArgument id, rfl⟩
      obtain ⟨passed, keeps⟩ := passVariable_paging erased.ready (erased.roots hl) p hn
        ⟨argument.2, ""⟩
      have loose := keeps _ (h.loose_of_eraseArgument hget)
      refine erased.trans (passed.trans (declareWithDefault_paging passed.ready
        (passed.roots (erased.roots hl)).document p _ _ fun v hv => ?_))
      cases hv
      exact loose

theorem written_variables : (Value.leaf .enum "Variables").Written :=
  ⟨.enum "Variables", .enum ⟨'V', ['a', 'r', 'i', 'a', 'b', 'l', 'e', 's'], rfl, rfl,
    List.all_eq_true.mp (by decide)⟩ (by decide), rfl⟩

theorem addDedupe_paging (h : s.Ready NoBorrowers) {document : Int}
    (hd : s.documents.contains document) (p : Position) :
    Paging s (s.addDedupe document p) := by
  obtain ⟨ready, _⟩ := addMarker_ready h .document hd hd rfl written_variables
    Framework.dedupeTag Framework.matchArgument (some ⟨"DedupeMatchMode", ""⟩) p
  exact ⟨ready, rfl⟩

theorem paginateList_paging (config : Config) (h : s.Ready NoBorrowers) {l : ListRow}
    (hl : s.Roots l) : Paging s (paginateList config s l) := by
  have bound : Paging s (l.pageArguments.foldl (bindPageArgument l (s.listPosition l)) s) :=
    List.foldlRecOn (motive := fun t => Paging s t) _ _ (.refl h) fun t ht a ha =>
      ht.trans (bindPageArgument_paging ht.ready (ht.roots hl) _ ha)
  rw [paginateList]
  split
  · exact bound.trans (addDedupe_paging bound.ready (bound.roots hl).document _)
  · exact bound

theorem preparePagination_paging (config : Config) (h : s.Ready NoBorrowers) :
    Paging s (s.preparePagination config).1 :=
  List.foldlRecOn (motive := fun t => Paging s t) _ _ (.refl h) fun _ ht _ hl =>
    ht.trans (paginateList_paging config ht.ready (ht.roots (h.roots (List.mem_filter.mp hl).1)))

/-! ## List operations -/

theorem Ready.weaken {G' : Int → Prop} (h : s.Ready G)
    (hG : ∀ d, s.documents.contains d → G d → G' d)
    (hd : ∀ v ∈ s.declarations.rows, ¬ G' v.document) : s.Ready G' :=
  { h.toSound.weaken hG hd with
    written := h.written
    homed := fun p hp q hq he hn hn' =>
      h.homed p hp q hq he (fun hg => hn (hG _ (h.closed.placements p hp).2.2 hg))
        fun hg => hn' (hG _ (h.closed.placements q hq).2.2 hg)
    listed := h.listed }

theorem Ready.borrow (h : s.Ready G) {row : Placement} (hG : G row.document)
    (hc : s.selections.contains row.child)
    (hd : s.documents.contains row.document)
    (hr : ∀ x, row.parent? = some x →
      ∃ q ∈ s.placements.rows, q.parent? = some x ∧ q.child = row.child) :
    (s.addPlacement row).1.Ready G := by
  refine h.addPlacement (fun x hx => ?_) hc hd (fun hg => absurd hG hg) fun n x hn => ?_
  · obtain ⟨q, hq, hparent, _⟩ := hr x hx
    exact (h.closed.placements q hq).1 x hparent
  · refine h.shallow n x (hn.map (f := id) (forall_rows_push.mpr ⟨fun p hp y hy => ?_, hr⟩))
    exact ⟨p, hp, hy, rfl⟩

theorem Ready.borrowAll (copies : List Placement) {s : Store} (h : s.Ready G)
    (hc : ∀ c ∈ copies, G c.document ∧ s.documents.contains c.document ∧
      s.selections.contains c.child ∧ ∀ x, c.parent? = some x →
        ∃ q ∈ s.placements.rows, q.parent? = some x ∧ q.child = c.child) :
    Ready G { s with placements := copies.foldl push s.placements } := by
  induction copies generalizing s with
  | nil => exact h
  | cons c cs ih =>
    obtain ⟨hG, hd, hx, hr⟩ := hc c List.mem_cons_self
    refine ih (s := (s.addPlacement c).1) (h.borrow hG hx hd hr) fun c' hm => ?_
    obtain ⟨hG', hd', hx', hr'⟩ := hc c' (List.mem_cons_of_mem c hm)
    refine ⟨hG', hd', hx', fun x he => ?_⟩
    obtain ⟨q, hq, hq'⟩ := hr' x he
    exact ⟨q, (rows_push s.placements c).symm ▸ List.mem_append_left _ hq, hq'⟩

/-- A copy stands in the target, at the root or where it stood before. -/
theorem mem_copiesBelow {placed : List (Placement × SelectionRow)} {target : Int} {depth : Nat}
    {parent : Int} {targetParent? : Option Int}
    (ht : ∀ x, targetParent? = some x → x = parent) {c : Placement}
    (h : c ∈ copiesBelow placed target depth parent targetParent?) :
    c.document = target ∧ ∃ e ∈ placed, e.1.child = c.child ∧
      ∀ x, c.parent? = some x → e.1.parent? = some x := by
  induction depth generalizing parent targetParent? with
  | zero => exact absurd h List.not_mem_nil
  | succ depth ih =>
    obtain ⟨e, he, h⟩ := List.mem_flatMap.mp h
    obtain ⟨hm, hp⟩ := List.mem_filter.mp he
    rcases List.mem_cons.mp h with rfl | h
    · refine ⟨rfl, e, hm, rfl, fun x hx => ?_⟩
      rw [ht x hx]
      exact of_decide_eq_true hp
    · exact ih (fun x hx => (Option.some.inj hx).symm) h

/-- What is kept while fragments are generated. -/
structure Generating (G : Int → Prop) (s t : Store) : Prop where
  ready : t.Ready G
  sources : t.sources = s.sources
  issued : s.documents.issued ≤ t.documents.issued
  documents : ∀ d, s.documents.contains d = true → t.documents.contains d = true
  selections : ∀ x, s.selections.contains x = true → t.selections.contains x = true

theorem Generating.refl (h : s.Ready G) : Generating G s s :=
  ⟨h, rfl, Nat.le_refl _, fun _ hd => hd, fun _ hx => hx⟩

theorem Generating.trans (h : Generating G s s') (h' : Generating G s' s'') :
    Generating G s s'' :=
  ⟨h'.ready, h'.sources.trans h.sources, Nat.le_trans h.issued h'.issued,
    fun d hd => h'.documents d (h.documents d hd), fun x hx => h'.selections x (h.selections x hx)⟩

theorem copyBelow_generating (h : s.Ready G) (document parent : Int) {target : Int}
    (hG : G target) (hd : s.documents.contains target) :
    Generating G s (s.copyBelow document parent target) := by
  refine ⟨h.borrowAll _ fun c hc => ?_, rfl, Nat.le_refl _, fun _ hd => hd, fun _ hx => hx⟩
  obtain ⟨rfl, e, he, hchild, hparent⟩ := mem_copiesBelow (by simp) hc
  obtain ⟨hm, _, hrow⟩ := mem_placed he
  refine ⟨hG, hd, hchild ▸ contains_of_get? hrow, fun x hx => ?_⟩
  exact ⟨e.1, hm, hparent x hx, hchild⟩

theorem appendFields_generating {document : Int} (typeName : String) (p : Position)
    (fields : List String) (hG : G document) (index : Int) {s : Store} (h : s.Ready G)
    (hd : s.documents.contains document) :
    Generating G s (appendFields document typeName p index s fields) := by
  induction fields generalizing s index with
  | nil => exact .refl h
  | cons field rest ih =>
    let row : SelectionRow := ⟨field, none, .field, some (Schema.idOf typeName field)⟩
    have added : Generating G s ((s.addSelection row).1.addPlacement
        ⟨none, s.selections.nextId, document, index, p⟩).1 := by
      refine ⟨?_, rfl, Nat.le_refl _, fun _ hd => hd, fun _ => contains_push_of_contains⟩
      exact (h.addSelection row).borrow hG (contains_push_nextId ..) hd nofun
    exact added.trans (ih (index + 1) added.ready hd)

theorem addListFragment_generating (h : s.Ready G) {l : ListRow}
    (hs : s.sources.contains l.source) (p : Position) (ending : String) :
    Generating G s (s.addListFragment l p ending).1 :=
  ⟨h.addDocument hs, rfl, Nat.le_succ _, fun _ => contains_push_of_contains, fun _ hx => hx⟩

section

variable {l : ListRow} {p : Position}

theorem addRecordFragment_generating (h : s.Ready G)
    (hs : s.sources.contains l.source) (hG : G s.documents.nextId) (ending : String) :
    Generating G s (addRecordFragment l p s ending) := by
  have here : (s.addListFragment l p ending).1.documents.contains s.documents.nextId :=
    contains_push_nextId ..
  have added := addListFragment_generating h hs p ending
  have copied := copyBelow_generating added.ready l.document l.node hG here
  exact added.trans (copied.trans (appendFields_generating _ _ _ hG _ copied.ready
    (copied.documents _ here)))

theorem addRemoveFragment_generating (h : s.Ready G)
    (hs : s.sources.contains l.source) (hG : G s.documents.nextId) :
    Generating G s (addRemoveFragment l p s) := by
  have added := addListFragment_generating h hs p Framework.removeEnding
  exact added.trans (appendFields_generating _ _ _ hG _ added.ready
    (contains_push_nextId ..))

end

theorem addDeleteDirective_generating (h : s.Ready G) (typeName : String) :
    Generating G s (s.addDeleteDirective typeName) := by
  refine ⟨?_, rfl, Nat.le_refl _, fun _ hd => hd, fun _ hx => hx⟩
  have closed : (s.addDeleteDirective typeName).Closed :=
    { h.closed with schema := Schema.closed_addDirective h.closed.schema _ _ _ }
  exact h.of_tables { h.toSound with closed } ⟨rfl, rfl, rfl, rfl⟩
    fun o _ _ ho => .inl (by cases o <;> exact ho)

/-- A document of a number beyond `n`. -/
def Beyond (n : Nat) : Int → Prop := fun d => (n : Int) < d

theorem beyond_nextId {n : Nat} (h : n ≤ s.documents.issued) : Beyond n s.documents.nextId := by
  simp only [Beyond, nextId]
  omega

theorem addListOperations_generating {n : Nat} (h : s.Ready (Beyond n))
    (hn : n ≤ s.documents.issued) {l : ListRow} (hs : s.sources.contains l.source) :
    Generating (Beyond n) s (s.addListOperations l) := by
  have records : Generating (Beyond n) s
      ([Framework.insertEnding, Framework.toggleEnding].foldl
        (addRecordFragment l (s.listPosition l)) s) :=
    List.foldlRecOn (motive := fun t => Generating (Beyond n) s t) _ _ (.refl h)
      fun t ht ending _ => ht.trans (addRecordFragment_generating ht.ready (ht.sources ▸ hs)
        (beyond_nextId (Nat.le_trans hn ht.issued)) ending)
  have removes := addRemoveFragment_generating (p := s.listPosition l) records.ready
    (records.sources ▸ hs) (beyond_nextId (Nat.le_trans hn records.issued))
  exact records.trans (removes.trans (addDeleteDirective_generating removes.ready l.nodeType))

theorem Ready.beyond (h : s.Ready NoBorrowers) : s.Ready (Beyond s.documents.issued) := by
  refine h.weaken (fun _ _ => False.elim) fun v hv hlt => ?_
  have := le_issued_of_contains (h.closed.declarations v hv).1
  simp only [Beyond] at hlt
  omega

/-- The generated fragments are the documents that borrow. -/
theorem generateListOperations_generating (h : s.Ready NoBorrowers) :
    Generating (Beyond s.documents.issued) s s.generateListOperations.1 := by
  refine List.foldlRecOn (motive := fun t => Generating (Beyond s.documents.issued) s t) _ _
    (.refl h.beyond) fun t ht l hl => ?_
  have roots := h.roots (List.mem_filter.mp hl).1
  exact ht.trans (addListOperations_generating ht.ready ht.issued (ht.sources ▸ roots.source))

/-! ## Spreads of component fields -/

theorem moveArgument_ready (h : s.Ready G) {use : Int} {u : DirectiveUse}
    (hu : (s.directives .selection).uses.get? use = some u) {id : Int} {a : FieldArgument}
    (ha : s.fieldArguments.get? id = some a) (hs : a.selection = u.owner) :
    (moveArgument use s (id, a)).Ready G := by
  -- The argument may as well go first, so that its value is free when the directive takes it.
  let t : Store := { s with fieldArguments := s.fieldArguments.erase id }
  have loose : t.Loose a.value := h.loose_of_eraseArgument ha
  have houses : t.Houses G .selection u.owner a.value :=
    hs ▸ (h.arguments a (mem_rows_of_get? ha)).congr rfl rfl
  have moved : (t.addDirectiveArgument .selection ⟨use, a.name, a.value, a.position⟩).1.Ready G :=
    (h.eraseArgument id).addDirectiveArgument hu loose.here loose.free houses loose.written
  exact moved

theorem foldl_moveArgument_induction {P : Store → Prop} {use : Int} {u : DirectiveUse}
    (step : ∀ t id a, P t → (t.directives .selection).uses.get? use = some u →
      t.fieldArguments.get? id = some a → a.selection = u.owner → P (moveArgument use t (id, a)))
    (as : List (Int × FieldArgument)) {s : Store} (h : P s)
    (hu : (s.directives .selection).uses.get? use = some u)
    (ha : ∀ a ∈ as, s.fieldArguments.get? a.1 = some a.2 ∧ a.2.selection = u.owner)
    (distinct : as.Pairwise fun a b => a.1 < b.1) : P (as.foldl (moveArgument use) s) := by
  induction as generalizing s with
  | nil => exact h
  | cons a as ih =>
    obtain ⟨hlt, distinct⟩ := List.pairwise_cons.mp distinct
    obtain ⟨hget, howner⟩ := ha a List.mem_cons_self
    refine ih (step s a.1 a.2 h hu hget howner) hu (fun b hb => ?_) distinct
    obtain ⟨hget', howner'⟩ := ha b (List.mem_cons_of_mem a hb)
    refine ⟨?_, howner'⟩
    have hne : b.1 ≠ a.1 := by
      have := hlt b hb
      omega
    have same : (moveArgument use s a).fieldArguments.get? b.1 = s.fieldArguments.get? b.1 :=
      (get?_erase ..).trans (if_neg hne)
    rw [same, hget']

/-- The arguments of a selection that is marked can be moved one by one. -/
theorem spreadArguments_induction {P : Store → Prop} {selection : Int} {p : Position}
    (step : ∀ t use id a u, P t → (t.directives .selection).uses.get? use = some u →
      t.fieldArguments.get? id = some a → a.selection = u.owner → P (moveArgument use t (id, a)))
    (h : P (s.addDirective .selection ⟨selection, Framework.withTag, p⟩).1) :
    P ((s.argumentRows selection).foldl
      (moveArgument (s.addDirective .selection ⟨selection, Framework.withTag, p⟩).2)
      (s.addDirective .selection ⟨selection, Framework.withTag, p⟩).1) := by
  refine foldl_moveArgument_induction (u := ⟨selection, Framework.withTag, p⟩)
    (fun t id a => step t _ id a _) _ h (get?_push_nextId ..) (fun a ha => ?_) ?_
  · obtain ⟨hm, hs⟩ := List.mem_filter.mp ha
    exact ⟨get?_of_mem hm, of_decide_eq_true hs⟩
  · exact s.fieldArguments.ordered.filter _

theorem spreadArguments_ready (h : s.Ready G) {selection : Int}
    (hx : s.selections.contains selection) (p : Position) :
    let marked := s.addDirective .selection ⟨selection, Framework.withTag, p⟩
    let moved := (s.argumentRows selection).foldl (moveArgument marked.2) marked.1
    moved.Ready G ∧ moved.selections = s.selections := by
  refine spreadArguments_induction (P := fun t => t.Ready G ∧ t.selections = s.selections)
    (fun t use id a u ht hu ha hs => ?_) ⟨h.addDirective hx, rfl⟩
  exact ⟨moveArgument_ready ht.1 hu ha hs, ht.2⟩

theorem spreadComponent_ready (h : s.Ready G) {found : Int × ComponentField}
    (hx : s.selections.contains found.1) :
    (s.spreadComponent found).Ready G ∧
    ∀ x, (s.spreadComponent found).selections.contains x = s.selections.contains x := by
  obtain ⟨selection, c⟩ := found
  have ready : Ready G { s with selections := s.selections.modify selection fun _ =>
      ⟨Framework.componentFragment c.type c.field, none, .fragment, none⟩ } :=
    h.withSelections fun id => contains_modify ..
  rw [spreadComponent]
  split
  · exact ⟨ready, fun x => contains_modify ..⟩
  · obtain ⟨ready', same⟩ := spreadArguments_ready ready
      ((contains_modify ..).trans hx) (s.firstPosition selection)
    exact ⟨ready', fun x => (congrArg (·.contains x) same).trans (contains_modify ..)⟩

theorem mem_componentSelections {found : Int × ComponentField} (h : found ∈ s.componentSelections) :
    s.selections.contains found.1 := by
  obtain ⟨⟨id, row⟩, he, h⟩ := List.mem_flatMap.mp h
  obtain ⟨⟨_, c⟩, _, h⟩ := List.mem_filterMap.mp h
  simp only [Option.ite_none_right_eq_some] at h
  obtain ⟨_, h⟩ := h
  cases h
  exact contains_of_get? (get?_of_mem he)

/-- What holds while selections become spreads, one after the other. -/
theorem spreadComponentFields_induction {P : Store → Prop} (h : s.Ready G) (hP : P s)
    (step : ∀ t found, t.Ready G → P t → P (t.spreadComponent found)) :
    s.spreadComponentFields.1.Ready G ∧ P s.spreadComponentFields.1 := by
  have key : s.spreadComponentFields.1.Ready G ∧ P s.spreadComponentFields.1 ∧
      ∀ x, s.spreadComponentFields.1.selections.contains x = s.selections.contains x :=
    List.foldlRecOn (motive := fun t : Store => t.Ready G ∧ P t ∧
      ∀ x, t.selections.contains x = s.selections.contains x) _ _ ⟨h, hP, fun _ => rfl⟩
      fun t ht found hf => by
        obtain ⟨ready, hP, same⟩ := ht
        obtain ⟨ready', same'⟩ := spreadComponent_ready ready
          ((same _).trans (mem_componentSelections hf))
        exact ⟨ready', step t found ready hP, fun x => (same' x).trans (same x)⟩
  exact ⟨key.1, key.2.1⟩

theorem spreadComponentFields_ready (h : s.Ready G) : s.spreadComponentFields.1.Ready G :=
  (spreadComponentFields_induction (P := fun _ => True) h trivial fun _ _ _ _ => trivial).1

end Store

theorem Project.rewrite_ready {p : Project} {s : Store} (h : s.Ready Store.NoBorrowers) :
    (p.rewrite s).Ready (Store.Beyond s.documents.issued) := by
  have paged := Store.preparePagination_paging p.config h
  have generated := Store.generateListOperations_generating paged.ready
  have same : (s.preparePagination p.config).1.documents = s.documents := by rw [paged.rest]
  rw [same] at generated
  exact Store.spreadComponentFields_ready generated.ready

end GraphDoc
