import GraphDoc.Proofs.FragmentArgument.Cloning

/-!
# The clone of a fragment

`Store.Cloned` is what `Store.cloneFragment` gives: a sound store in which the clone shows the tree
of the fragment, while all that was there before looks the same. The clone shares a selection with
other documents only if nothing stands on it and it is not a spread.
-/

set_option autoImplicit false

namespace GraphDoc

open Table

universe u

theorem insertBy_map {α β : Type u} {le : α → α → Bool} {le' : β → β → Bool} {f : α → β}
    (h : ∀ a b, le' (f a) (f b) = le a b) (a : α) (l : List α) :
    insertBy le' (f a) (l.map f) = (insertBy le a l).map f := by
  induction l with
  | nil => rfl
  | cons b l ih =>
    rw [List.map_cons, insertBy, insertBy, h, ih]
    split <;> rfl

theorem sortBy_map {α β : Type u} {le : α → α → Bool} {le' : β → β → Bool} {f : α → β}
    (h : ∀ a b, le' (f a) (f b) = le a b) (l : List α) :
    sortBy le' (l.map f) = (sortBy le l).map f := by
  induction l with
  | nil => rfl
  | cons a l ih => rw [List.map_cons, sortBy, sortBy, ih, insertBy_map h]

namespace Store

variable {s t t' : Store} {G : Int → Prop} {source clone : Int} {m : CopyMap}

/-! ## The first steps -/

theorem Sound.copyValues (hs : s.Sound G) {row : DocumentRow}
    (hrow : s.sources.contains row.source) (source : Int) :
    ∃ t m, (s.addDocument row).1.copyValues source s.documents.nextId = (t, m) ∧
      m.Copies ((s.valuesIn source).map (·.1)) s.values.issued t.values.issued ∧
      Cloning G s source s.documents.nextId m (fun _ => False) t ∧
      t = { (s.addDocument row).1 with values := t.values, valueLinks := t.valueLinks } := by
  generalize hs₁ : (s.addDocument row).1 = s₁
  have sound₁ : s₁.Sound G := hs₁ ▸ hs.addDocument hrow
  have hd : s₁.documents.contains s.documents.nextId := by
    rw [← hs₁]
    exact contains_push_nextId ..
  have hvalues : s₁.values = s.values := by rw [← hs₁]; rfl
  have hlinks : s₁.valueLinks = s.valueLinks := by rw [← hs₁]; rfl
  have howns : ∀ o, s₁.owns o = s.owns o := fun o => by rw [← hs₁]; cases o <;> rfl
  have hdoc : ∀ v, s₁.documentOf v = s.documentOf v := fun v => by rw [documentOf, documentOf, hvalues]
  have hread := read_of_tables hvalues hlinks
  have grown : Copying s s₁ := hs₁ ▸ .addDocument s row
  have rows := copyValueRows sound₁ hd (s₁.valuesIn source)
  have links := copyLinks sound₁ rows
  have values := fun v hv => LinksCopied.read (v := v) sound₁ rows links hv
  generalize hr : (s₁.valuesIn source).foldl (copyValueRow s.documents.nextId) (s₁, []) = r
    at rows links values
  obtain ⟨t₁, m⟩ := r
  generalize ht : (s₁.linksIn source).foldl (copyLink m) t₁ = t at links values
  have hm : m.Copies ((s.valuesIn source).map (·.1)) s.values.issued t.values.issued := by
    have hsame : t.values = t₁.values := by rw [links.same]
    have := rows.map
    rwa [valuesIn, hvalues, ← valuesIn, ← hsame] at this
  refine ⟨t, m, ?_, hm, ⟨links.sound, grown.trans links.copying, ?_, ?_, ?_, ?_⟩, ?_⟩
  · change ((s₁.linksIn source).foldl (copyLink
      ((s₁.valuesIn source).foldl (copyValueRow s.documents.nextId) (s₁, [])).2)
      ((s₁.valuesIn source).foldl (copyValueRow s.documents.nextId) (s₁, [])).1,
      ((s₁.valuesIn source).foldl (copyValueRow s.documents.nextId) (s₁, [])).2) = (t, m)
    rw [hr, ht]
  · intro v hv
    have hv₁ := (hdoc v).trans hv
    obtain ⟨r, hrow, hsource⟩ := Option.bind_eq_some_iff.mp hv₁
    have hcopy : t.values.get? (m.image v) = some { r with document? := some s.documents.nextId } := by
      rw [links.same]
      exact rows.get? hrow hsource
    refine ⟨contains_of_get? hcopy, ?_, ?_⟩
    · rw [documentOf, hcopy]
      rfl
    · rw [values v hv₁, hread]
  · intro o v ho
    rcases links.owned o v ho with ho | ⟨_, l, hl, rfl⟩
    · exact .inl (howns o ▸ ho)
    · obtain ⟨hl, hparent⟩ := List.mem_filter.mp hl
      have hv := (sound₁.together l hl).trans (of_decide_eq_true hparent)
      obtain ⟨r, hrow, hsource⟩ := Option.bind_eq_some_iff.mp hv
      refine .inr ?_
      rw [documentOf, links.same, rows.get? hrow hsource]
      rfl
  · intro o v ho hv hchild _ o' ho'
    have hle := le_issued_of_contains (hs.closed.contains_of_owns ho)
    rcases links.owned o' _ ho' with ho' | ⟨_, l, hl, he⟩
    · have := le_issued_of_contains (hs.closed.contains_of_owns (howns o' ▸ ho'))
      have := (hm.image_fresh (mem_valuesIn_ids.mpr hv)).1
      omega
    · -- A value that a link leads to has no other owner.
      obtain ⟨hl, _⟩ := List.mem_filter.mp hl
      obtain ⟨id, hid⟩ := mem_rows_iff.mp hl
      have hown : s.owns (.child id) = some l.value := by
        rw [← howns]
        exact Option.map_eq_some_iff.mpr ⟨l, hid, rfl⟩
      have hle' := le_issued_of_contains (hs.closed.contains_of_owns hown)
      rw [hm.image_inj hle hle' he] at ho
      exact hchild (hs.single _ _ _ hown ho ▸ trivial)
  · intro site id v ho
    rcases links.owned _ v ho with ho | ⟨hc, _⟩
    · refine ⟨id, v, howns _ ▸ ho, ?_⟩
      rw [links.copying.read sound₁ links.sound (sound₁.closed.contains_of_owns ho), hread]
    · exact hc.elim
  · rw [links.same, rows.same]

/-! ## Placements -/

/-- A placement of a fragment as it is repeated in a clone. -/
def copiedPlacement (m : CopyMap) (target : Int) (p : Placement) : Placement :=
  { p with parent? := p.parent?.map m.image, child := m.image p.child, document := target }

theorem heldIn_of_not_isOwned {x d : Int} {row : SelectionRow} (h : s.isOwned x row = false) :
    s.HeldIn x d := by
  simp only [isOwned, Bool.or_eq_false_iff, List.any_eq_false, decide_eq_true_eq] at h
  exact ⟨fun a ha hx => absurd hx (h.1.2 a ha),
    fun id u hu hx => absurd hx (h.2 u (mem_rows_of_get? hu))⟩

theorem Cloning.heldIn {done : Owner → Prop} (hs : s.Sound G)
    (h : Cloning G s source clone m done t) {x : Int} (hx : (s.selections.issued : Int) < x) :
    t.HeldIn x clone := by
  refine ⟨fun a ha hax => ?_, fun id u hu hux a ha haid => ?_⟩
  · obtain ⟨id, hid⟩ := mem_rows_iff.mp ha
    rcases h.owned (.argument id) a.value (Option.map_eq_some_iff.mpr ⟨a, hid, rfl⟩) with ho | hd
    · obtain ⟨a', ha', _⟩ := Option.map_eq_some_iff.mp ho
      cases (h.copying.fieldArguments.get?_of_get? ha').symm.trans hid
      have := le_issued_of_contains
        (hs.closed.fieldArguments a (mem_rows_of_get? ha')).1
      omega
    · exact hd
  · obtain ⟨aid, hget⟩ := mem_rows_iff.mp ha
    rcases h.owned (.directive .selection aid) a.value
      (Option.map_eq_some_iff.mpr ⟨a, hget, rfl⟩) with ho | hd
    · obtain ⟨a', ha', _⟩ := Option.map_eq_some_iff.mp ho
      cases ((h.copying.arguments .selection).get?_of_get? ha').symm.trans hget
      have hmem := (hs.closed.directives .selection).arguments a (mem_rows_of_get? ha')
      obtain ⟨u', hu'⟩ := contains_iff.mp hmem.1
      cases ((h.copying.uses .selection).get?_of_get? hu').symm.trans (haid ▸ hu)
      have := le_issued_of_contains
        ((hs.closed.directives .selection).uses u (mem_rows_of_get? hu'))
      omega
    · exact hd

theorem Copying.copyPlacements {ids : CopyMap} {sources : List Int} (h : Copying s t)
    (hs : s.Sound G) (ht : t.Sound G) (hp : t.placements = s.placements)
    (hids : ids.Copies sources s.selections.issued t.selections.issued)
    (hclone : t.documents.contains clone) (hnew : (s.documents.issued : Int) < clone)
    (present : ∀ x, s.selections.contains x → t.selections.contains (ids.image x))
    (held : ∀ p ∈ s.placements.rows, p.document = source → t.HeldIn (ids.image p.child) clone) :
    let here := s.placements.rows.filter (·.document = source)
    let t' := here.foldl (copyPlacement ids clone) t
    t'.Sound G ∧ Copying s t' ∧ t' = { t with placements := t'.placements } ∧
      t'.placements.rows = s.placements.rows ++ here.map (copiedPlacement ids clone) := by
  refine foldl_snoc_induction (f := copyPlacement ids clone) (b := t) (P := fun pre t' =>
    t'.Sound G ∧ Copying s t' ∧ t' = { t with placements := t'.placements } ∧
      t'.placements.rows = s.placements.rows ++ pre.map (copiedPlacement ids clone)) _
    ⟨ht, h, rfl, by simp [hp]⟩ ?_
  rintro pre p post hsplit t' ⟨sound, copying, same, rows⟩
  have mine : ∀ q ∈ pre ++ [p], q ∈ s.placements.rows ∧ q.document = source := by
    intro q hq
    have : q ∈ s.placements.rows.filter (·.document = source) := by
      rw [hsplit]
      rcases List.mem_append.mp hq with hq | hq
      · exact List.mem_append_left _ hq
      · exact List.mem_append_right _ (List.mem_singleton.mp hq ▸ List.mem_cons_self)
    simpa using this
  obtain ⟨hrow, hd⟩ := mine p (by simp)
  have hselections : t'.selections = t.selections := by rw [same]
  have hdocuments : t'.documents = t.documents := by rw [same]
  have rows' : (t'.placements.push (copiedPlacement ids clone p)).rows =
      s.placements.rows ++ (pre ++ [p]).map (copiedPlacement ids clone) := by
    rw [rows_push, rows]
    simp
  refine ⟨?_, copying.addPlacement hnew, ?_, rows'⟩
  · refine sound.addPlacement ?_ ?_ (hdocuments ▸ hclone) (fun _ => ?_) fun n x hx => ?_
    · intro x hx
      obtain ⟨y, hy, rfl⟩ := Option.map_eq_some_iff.mp hx
      rw [hselections]
      exact present y ((hs.closed.placements p hrow).1 y hy)
    · rw [hselections]
      exact present _ (hs.closed.placements p hrow).2.1
    · rw [same]
      exact held p hrow hd
    · -- Led back to the selections that were copied, no descent is new.
      refine hs.shallow n _ (hx.map (f := ids.source) fun q hq y hy => ?_)
      change q ∈ (t'.placements.push (copiedPlacement ids clone p)).rows at hq
      rw [rows'] at hq
      rcases List.mem_append.mp hq with hq | hq
      · have hc := hs.closed.placements q hq
        refine ⟨q, hq, ?_, ?_⟩
        · rw [hids.source_eq_self (le_issued_of_contains (hc.1 y hy))]
          exact hy
        · rw [hids.source_eq_self (le_issued_of_contains hc.2.1)]
      · obtain ⟨q, hmem, rfl⟩ := List.mem_map.mp hq
        obtain ⟨z, hz, rfl⟩ := Option.map_eq_some_iff.mp hy
        have hq := (mine q hmem).1
        have hc := hs.closed.placements q hq
        refine ⟨q, hq, ?_, ?_⟩
        · rw [hids.source_image (le_issued_of_contains (hc.1 z hz))]
          exact hz
        · exact (hids.source_image (le_issued_of_contains hc.2.1)).symm
  · rw [copyPlacement, Store.addPlacement]
    conv_lhs => rw [same]

/-! ## The clone -/

/-- In `s'`, the fragment `source` of `s` has a clone. -/
structure Cloned (G : Int → Prop) (s : Store) (source : Int) (row : DocumentRow) (name : String)
    (ids : CopyMap) (s' : Store) : Prop where
  sound : s'.Sound G
  copying : Copying s s'
  documents : s'.documents = s.documents.push { row with name := name, kind := .fragment }
  tree : Translates s s' ids.image (fun _ row => row) (fun v => v) (s.placed source)
    (s'.placed s.documents.nextId)
  nodes : s'.nodes .document s.documents.nextId =
    (s.nodes .document source).filter (·.name ≠ Framework.argumentsTag)
  own : ∀ p ∈ s'.placements.rows, p ∈ s.placements.rows ∨ p.document = s.documents.nextId ∧
    ((s.selections.issued : Int) < p.child ∨
      ∃ row, s.selections.get? p.child = some row ∧ s.isOwned p.child row = false)
  parents : ∀ p ∈ s'.placements.rows, ∀ x, p.parent? = some x →
    (s.selections.issued : Int) < x ∨ ∃ q ∈ s.placements.rows, q.parent? = some x
  inherits : ∀ site id v, s'.owns (.directive site id) = some v →
    ∃ id₀ v₀, s.owns (.directive site id₀) = some v₀ ∧ s'.read v = s.read v₀

theorem mem_selectionsIn {d : Int} {e : Int × SelectionRow} : e ∈ s.selectionsIn d ↔
    s.selections.get? e.1 = some e.2 ∧ ∃ p ∈ s.placements.rows, p.document = d ∧ p.child = e.1 := by
  rw [selectionsIn, List.mem_filter, get?_eq_some_iff]
  simp

/-- The selections of a document that its clones do not share. -/
def ownedIn (s : Store) (d : Int) : List (Int × SelectionRow) :=
  (s.selectionsIn d).filter fun e => s.isOwned e.1 e.2

theorem SelectionsCopied.counterpart {done : Owner → Prop} {t₀ : Store} {ids : CopyMap}
    (hs : s.Sound G) (h : SelectionsCopied G s source clone m done t₀ (s.ownedIn source) t ids)
    {p : Placement} (hp : p ∈ s.placements.rows) (hd : p.document = source) :
    t.selections.get? (ids.image p.child) = s.selections.get? p.child ∧
    t.arguments (ids.image p.child) = s.arguments p.child ∧
    t.nodes .selection (ids.image p.child) = s.nodes .selection p.child ∧
    t.HeldIn (ids.image p.child) clone ∧
    ((s.selections.issued : Int) < ids.image p.child ∨ ids.image p.child = p.child ∧
      ∃ row, s.selections.get? p.child = some row ∧ s.isOwned p.child row = false) := by
  obtain ⟨row, hrow⟩ := contains_iff.mp (hs.closed.placements p hp).2.1
  have hle := le_issued hrow
  by_cases ho : s.isOwned p.child row = true
  · have hmem : (p.child, row) ∈ s.ownedIn source :=
      List.mem_filter.mpr ⟨mem_selectionsIn.mpr ⟨hrow, p, hp, hd, rfl⟩, ho⟩
    obtain ⟨hget, harguments, hnodes⟩ := h.copies _ hmem
    have hfresh := (h.map.image_fresh (List.mem_map_of_mem (f := (·.1)) hmem)).1
    exact ⟨hget.trans hrow.symm, harguments, hnodes, h.cloning.heldIn hs hfresh, .inl hfresh⟩
  · have hself : ids.image p.child = p.child := by
      refine h.map.image_eq_self fun hk => ?_
      obtain ⟨e, he, hid⟩ := List.mem_map.mp hk
      obtain ⟨hin, hown⟩ := List.mem_filter.mp he
      cases hrow.symm.trans (hid ▸ (mem_selectionsIn.mp hin).1)
      exact ho (hid ▸ hown)
    have ho := Bool.eq_false_iff.mpr ho
    rw [hself]
    refine ⟨h.cloning.copying.selections.get?_of_le hle,
      h.cloning.copying.arguments_eq hs h.cloning.sound hle,
      h.cloning.copying.nodes_eq hs h.cloning.sound hle, ?_, .inr ⟨rfl, row, hrow, ho⟩⟩
    have ho' := (h.cloning.copying.isOwned hle).trans ho
    exact heldIn_of_not_isOwned ho'

theorem SelectionsCopied.contains_image {done : Owner → Prop} {t₀ : Store} {ids : CopyMap}
    (h : SelectionsCopied G s source clone m done t₀ (s.ownedIn source) t ids) {x : Int}
    (hx : s.selections.contains x) : t.selections.contains (ids.image x) := by
  by_cases hk : x ∈ (s.ownedIn source).map (·.1)
  · obtain ⟨e, he, rfl⟩ := List.mem_map.mp hk
    exact contains_of_get? (h.copies e he).1
  · rw [h.map.image_eq_self hk]
    exact h.cloning.copying.selections.contains hx

/-- The clone as document `row`, with all that stands on it and on its selections, but nothing is
placed in it. -/
structure Furnished (G : Int → Prop) (s : Store) (source : Int) (row : DocumentRow) (ids : CopyMap)
    (t : Store) : Prop where
  copied : ∃ m done t₀,
    SelectionsCopied G s source s.documents.nextId m done t₀ (s.ownedIn source) t ids
  placements : t.placements = s.placements
  documents : t.documents = s.documents.push row
  nodes : t.nodes .document s.documents.nextId =
    (s.nodes .document source).filter (·.name ≠ Framework.argumentsTag)

theorem Sound.furnish (hs : s.Sound G) {row : DocumentRow}
    (hrow : s.documents.get? source = some row) (hG : ¬ G source) (name : String) :
    ∃ t ids, s.cloneFragment source row name =
        ((s.placements.rows.filter (·.document = source)).foldl
          (copyPlacement ids s.documents.nextId) t, s.documents.nextId) ∧
      Furnished G s source { row with name := name, kind := .fragment } ids t := by
  have hnew := s.documents.issued_lt_nextId
  have hsrc : s.sources.contains ({ row with name := name, kind := .fragment } : DocumentRow).source =
      true := hs.closed.documents row (mem_rows_of_get? hrow)
  -- The values come first, and wait for what owns them.
  obtain ⟨t₁, m, step₁, hm, h₁, same₁⟩ := hs.copyValues hsrc source
  let uses := ((s.directives .document).usesOf source).filter (·.2.name ≠ Framework.argumentsTag)
  have hclone : t₁.documents.contains s.documents.nextId := by
    rw [same₁]
    exact contains_push_nextId ..
  obtain ⟨h₂, same₂, nodes₂⟩ := h₁.copyDirectives hm hs (by decide : Site.document ≠ .declaration)
    hclone hnew (fun v hv => (h₁.copied v hv).2.1) uses
    (fun use hu => by
      obtain ⟨hmem, howner⟩ := List.mem_filter.mp (List.mem_filter.mp hu).1
      refine ⟨get?_of_mem hmem, fun a ha => ⟨?_, fun hd => hd⟩⟩
      obtain ⟨ha, hau⟩ := List.mem_filter.mp ha
      have hhouse := hs.directives .document use.1 use.2 (get?_of_mem hmem) a.2
        (mem_rows_of_get? (get?_of_mem ha)) (of_decide_eq_true hau)
      exact (of_decide_eq_true howner) ▸ hhouse)
    (((s.directives .document).uses.ordered.filter _).filter _)
  generalize step₂ : uses.foldl (Store.copyDirective .document m s.documents.nextId) t₁ = t₂
    at h₂ same₂ nodes₂
  have h₃ := h₂.copySelections hm hs (by rw [same₂, same₁]; rfl)
    (fun x o ho hd => by
      rcases hd with hd | ⟨_, _, a, _, rfl⟩
      · exact hd
      · exact ho)
    (s.ownedIn source)
    (fun e he => by
      obtain ⟨hget, p, hp, hd, hc⟩ := mem_selectionsIn.mp (List.mem_filter.mp he).1
      exact ⟨hget, fun o v ho hv => hs.documentOf_of_standsOn hG hp hd (hc ▸ ho) hv⟩)
    (((s.selections.ordered.filter _).filter _))
  generalize step₃ : (s.ownedIn source).foldl (Store.copySelection m) (t₂, []) = r at h₃
  obtain ⟨t₃, ids⟩ := r
  change SelectionsCopied G s source s.documents.nextId m _ t₂ (s.ownedIn source) t₃ ids at h₃
  refine ⟨t₃, ids, ?_, ⟨m, _, t₂, h₃⟩, ?_, ?_, ?_⟩
  · have added : s.addDocument { row with name := name, kind := .fragment } =
        ((s.addDocument { row with name := name, kind := .fragment }).1, s.documents.nextId) := rfl
    rw [Store.cloneFragment, added]
    dsimp only
    rw [step₁]
    dsimp only
    rw [step₂]
    erw [step₃]
  · rw [h₃.same, same₂, same₁]
    rfl
  · rw [h₃.same, same₂, same₁]
    rfl
  · have before : t₁.nodes .document s.documents.nextId = [] := by
      have : t₁.directives .document = s.directives .document := by rw [same₁]; rfl
      rw [Store.nodes, this, usesOf_eq_nil hs.closed hnew, List.map_nil]
    have after : t₃.nodes .document s.documents.nextId = t₂.nodes .document s.documents.nextId := by
      rw [h₃.same]
      apply nodes_of_tables <;> rfl
    rw [after, nodes₂, before, if_pos rfl, List.nil_append, Store.nodes, List.filter_map]
    rfl

/-- What is placed in the clone, once the placements of the fragment are repeated in it. -/
theorem SelectionsCopied.placed_clone {done : Owner → Prop} {t₀ : Store} {ids : CopyMap}
    (h : SelectionsCopied G s source s.documents.nextId m done t₀ (s.ownedIn source) t ids)
    (hs : s.Sound G) (selections : t'.selections = t.selections)
    (rows : t'.placements.rows = s.placements.rows ++
      (s.placements.rows.filter (·.document = source)).map
        (copiedPlacement ids s.documents.nextId)) :
    t'.placed s.documents.nextId =
      (s.placed source).map fun e => (copiedPlacement ids s.documents.nextId e.1, e.2) := by
  have hnew := s.documents.issued_lt_nextId
  have old : s.placements.rows.filter (·.document = s.documents.nextId) = [] := by
    refine List.filter_eq_nil_iff.mpr fun p hp => ?_
    have := le_issued_of_contains (hs.closed.placements p hp).2.2
    simp only [decide_eq_true_eq]
    omega
  have new : ((s.placements.rows.filter (·.document = source)).map
      (copiedPlacement ids s.documents.nextId)).filter (·.document = s.documents.nextId) =
      (s.placements.rows.filter (·.document = source)).map
        (copiedPlacement ids s.documents.nextId) := by
    rw [List.filter_map]
    simp [Function.comp_def, copiedPlacement]
  rw [placed, rows, List.filter_append, old, new, List.nil_append,
    sortBy_map (fun a b => (rfl : _ = decide (a.index ≤ b.index))), placed,
    List.filterMap_map, List.map_filterMap]
  refine List.filterMap_congr fun p hp => ?_
  obtain ⟨hp, hd⟩ := List.mem_filter.mp ((mem_sortBy_iff ..).mp hp)
  have hget := (h.counterpart hs hp (of_decide_eq_true hd)).1
  simp only [Function.comp_apply, copiedPlacement, selections, hget, Option.map_map]
  rfl

theorem Sound.cloneFragment (hs : s.Sound G) {row : DocumentRow}
    (hrow : s.documents.get? source = some row) (hG : ¬ G source) (name : String) :
    ∃ s' ids, s.cloneFragment source row name = (s', s.documents.nextId) ∧
      Cloned G s source row name ids s' := by
  obtain ⟨t, ids, made, furnished⟩ := hs.furnish hrow hG name
  obtain ⟨m, done, t₀, copied⟩ := furnished.copied
  have counterpart := fun p hp hd => copied.counterpart (p := p) hs hp hd
  obtain ⟨sound, copying, same, rows⟩ := copied.cloning.copying.copyPlacements hs
    copied.cloning.sound furnished.placements copied.map
    (furnished.documents ▸ contains_push_nextId ..) s.documents.issued_lt_nextId
    (fun _ => copied.contains_image) (fun p hp hd => (counterpart p hp hd).2.2.2.1)
  rw [made]
  generalize (s.placements.rows.filter (·.document = source)).foldl
    (copyPlacement ids s.documents.nextId) t = s' at sound copying same rows
  have arguments : ∀ x, s'.arguments x = t.arguments x := fun x => by
    rw [same]
    apply arguments_of_tables <;> rfl
  have nodes : ∀ site x, s'.nodes site x = t.nodes site x := fun site x => by
    rw [same]
    apply nodes_of_tables <;> cases site <;> rfl
  refine ⟨s', ids, rfl, sound, copying, ?_, ⟨⟨fun e => (copiedPlacement ids s.documents.nextId e.1,
    e.2), ?_, fun e he => ⟨rfl, rfl, rfl⟩⟩, ?_, ?_, ?_⟩, (nodes _ _).trans furnished.nodes,
    ?_, ?_, ?_⟩
  · rw [same]
    exact furnished.documents
  · exact copied.placed_clone hs (by rw [same]) rows
  · intro e he x hx e' he' hid
    have hc := hs.closed.placements e.1 (mem_placed he).1
    exact copied.map.image_inj (le_issued_of_contains (hc.1 x hx))
      (le_issued (mem_placed he').2.2) hid
  · intro e he
    obtain ⟨hp, hd, _⟩ := mem_placed he
    rw [arguments, (counterpart e.1 hp hd).2.1, List.map_id']
  · intro e he
    obtain ⟨hp, hd, _⟩ := mem_placed he
    rw [nodes, (counterpart e.1 hp hd).2.2.1]
  · intro p hp
    rw [rows] at hp
    rcases List.mem_append.mp hp with hp | hp
    · exact .inl hp
    · obtain ⟨q, hq, rfl⟩ := List.mem_map.mp hp
      obtain ⟨hq, hd⟩ := List.mem_filter.mp hq
      refine .inr ⟨rfl, ?_⟩
      rcases (counterpart q hq (of_decide_eq_true hd)).2.2.2.2 with hnew | ⟨hself, row, hrow⟩
      · exact .inl hnew
      · refine .inr ⟨row, ?_⟩
        simp only [copiedPlacement, hself]
        exact hrow
  · intro p hp x hx
    rw [rows] at hp
    rcases List.mem_append.mp hp with hp | hp
    · exact .inr ⟨p, hp, hx⟩
    · obtain ⟨q, hq, rfl⟩ := List.mem_map.mp hp
      obtain ⟨y, hy, rfl⟩ := Option.map_eq_some_iff.mp hx
      by_cases hk : y ∈ (s.ownedIn source).map (·.1)
      · exact .inl (copied.map.image_fresh hk).1
      · rw [copied.map.image_eq_self hk]
        exact .inr ⟨q, (List.mem_filter.mp hq).1, hy⟩
  · intro site id v ho
    have ho : t.owns (.directive site id) = some v := by
      rw [same] at ho
      cases site <;> exact ho
    obtain ⟨id₀, v₀, h₀, hread⟩ := copied.cloning.inherits site id v ho
    refine ⟨id₀, v₀, h₀, ?_⟩
    rw [← hread, same]
    apply read_of_tables <;> rfl

end Store

end GraphDoc
