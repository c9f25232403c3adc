import GraphDoc.Proofs.Faithful
import GraphDoc.Proofs.FragmentArgument.Settling
import GraphDoc.Proofs.Fields

/-!
# Targets of spreads

Validation accepts a spread if a fragment has its name or a list will bring one. The fragments of
lists and the clones of templates have the names that were promised, and a component field is spread
under the name that its fragment was given.
-/

set_option autoImplicit false

namespace GraphDoc

open Table

/-! ## Tables -/

theorem Table.map_rows_modify {α β : Type} (t : Table α) (id : Int) (f : α → α) (g : α → β)
    (h : ∀ a, g (f a) = g a) : (t.modify id f).rows.map g = t.rows.map g := by
  rw [Table.rows, Table.rows, List.map_map, List.map_map, Table.modify, Table.mapRows, List.map_map]
  refine List.map_congr_left fun e _ => ?_
  simp only [Function.comp_apply]
  split
  · exact h e.2
  · rfl

namespace Store

variable {s s' s'' : Store}

/-- There is a fragment of that name. -/
def HasFragment (s : Store) (name : String) : Prop :=
  ∃ d ∈ s.documents.rows, d.kind = .fragment ∧ d.name = name

/-- Every spread that is placed in a document names a fragment. -/
def Anchored (s : Store) : Prop := ∀ q ∈ s.placements.rows, ∀ row,
  s.selections.get? q.child = some row → row.kind = .fragment → s.HasFragment row.name

theorem HasFragment.mono {name : String} (h : s.HasFragment name)
    (hd : ∀ d ∈ s.documents.rows, d ∈ s'.documents.rows) : s'.HasFragment name := by
  obtain ⟨d, hm, hk, hn⟩ := h
  exact ⟨d, hd d hm, hk, hn⟩

theorem hasFragment_of_get? {id : Int} {row : DocumentRow} (h : s.documents.get? id = some row)
    (hk : row.kind = .fragment) : s.HasFragment row.name :=
  ⟨row, mem_rows_of_get? h, hk, rfl⟩

theorem hasFragment_of_findDocument {name : String} {e : Int × DocumentRow}
    (h : s.findDocument name .fragment = some e) : s.HasFragment name := by
  obtain ⟨hget, hn, hk⟩ := findDocument_eq_some h
  exact hn ▸ hasFragment_of_get? hget hk

/-! ## Component fields -/

open ComponentField

/-- The fragment of a declaration still has the name that it was declared with. -/
def Declares (s : Store) (d : Declaration) : Prop :=
  ∃ row, s.documents.get? d.document = some row ∧ row.kind = .fragment ∧ row.name = d.name

/-- Every fragment that backs a component field is named after it. -/
def Backed (s : Store) : Prop := ∀ e ∈ s.componentFields.rows, ∃ row,
  s.documents.get? e.1 = some row ∧ row.kind = .fragment ∧
    row.name = Framework.componentFragment e.2.type e.2.field

theorem Backed.hasFragment (h : s.Backed) {e : Int × ComponentField}
    (he : e ∈ s.componentFields.rows) :
    s.HasFragment (Framework.componentFragment e.2.type e.2.field) := by
  obtain ⟨row, hrow, hk, hn⟩ := h e he
  exact hn ▸ hasFragment_of_get? hrow hk

theorem get?_registerComponent (s : Store) (d : Declaration) (x : Int) (hd : s.Declares d) :
    (s.registerComponent d).documents.get? x = if x = d.document then
      (s.documents.get? x).map fun row =>
        { row with name := Framework.componentFragment d.condition d.field }
      else s.documents.get? x := by
  obtain ⟨row, hrow, _, hname⟩ := hd
  rw [registerComponent]
  split
  · next he =>
    split
    · next hx =>
      subst hx
      have same : row.name = Framework.componentFragment d.condition d.field :=
        hname.trans (beq_iff_eq.mp he)
      rw [hrow, Option.map_some, ← same]
    · rfl
  · exact get?_modify ..

theorem Declares.registerComponent {d e : Declaration} (he : s.Declares e) (hd : s.Declares d)
    (hne : e.document ≠ d.document) : (s.registerComponent d).Declares e := by
  obtain ⟨row, hrow, hk⟩ := he
  refine ⟨row, ?_, hk⟩
  rw [get?_registerComponent s d _ hd, if_neg hne, hrow]

theorem Backed.registerComponent (h : s.Backed) {d : Declaration} (hd : s.Declares d) :
    (s.registerComponent d).Backed := by
  intro e he
  have fields : (s.registerComponent d).componentFields =
      s.componentFields.put d.document ⟨d.prop, d.field, d.condition, d.inline⟩ := by
    rw [Store.registerComponent]
    split <;> rfl
  rw [fields] at he
  rcases Keyed.mem_rows_put he with ⟨he, hne⟩ | rfl
  · obtain ⟨row, hrow, hk⟩ := h e he
    refine ⟨row, ?_, hk⟩
    rw [get?_registerComponent s d _ hd, if_neg hne, hrow]
  · obtain ⟨row, hrow, hk, _⟩ := id hd
    refine ⟨{ row with name := Framework.componentFragment d.condition d.field }, ?_, hk, rfl⟩
    rw [get?_registerComponent s d _ hd, if_pos rfl, hrow]
    rfl

theorem foldl_registerGroup_backed (groups : List (List Declaration))
    {outcome : Store × Diagnostics × List String} (h : outcome.1.Backed)
    (declared : ∀ g ∈ groups, ∀ d ∈ g, outcome.1.Declares d)
    (apart : groups.Pairwise fun g g' => ∀ d ∈ g, ∀ e ∈ g', e.document ≠ d.document) :
    (groups.foldl registerGroup outcome).1.Backed := by
  induction groups generalizing outcome with
  | nil => exact h
  | cons g groups ih =>
    obtain ⟨hfirst, hrest⟩ := List.pairwise_cons.mp apart
    rw [List.foldl_cons]
    obtain ⟨t, found, fields⟩ := outcome
    cases g with
    | nil => exact ih h (fun g hg => declared g (List.mem_cons_of_mem _ hg)) hrest
    | cons d others =>
      have hd := declared _ List.mem_cons_self d List.mem_cons_self
      simp only [registerGroup]
      split
      · exact ih h (fun g hg => declared g (List.mem_cons_of_mem _ hg)) hrest
      · refine ih (h.registerComponent hd) (fun g hg e he => ?_) hrest
        exact (declared g (List.mem_cons_of_mem _ hg) e he).registerComponent hd
          (hfirst g hg d List.mem_cons_self e he)

theorem componentGroups_pairwise {ds : List Declaration}
    (single : ∀ d ∈ ds, ∀ e ∈ ds, e.document = d.document → e = d) :
    (componentGroups ds).Pairwise fun g g' => ∀ d ∈ g, ∀ e ∈ g', e.document ≠ d.document := by
  rw [componentGroups, List.pairwise_map]
  refine (distinct_nodup _).imp fun {k k'} hne d hd e he hde => hne ?_
  obtain ⟨hd, hk⟩ := List.mem_filter.mp hd
  obtain ⟨he, hk'⟩ := List.mem_filter.mp he
  rw [single d hd e he hde] at hk'
  exact (of_decide_eq_true hk).symm.trans (of_decide_eq_true hk')

/-- No fragment carries two component field directives. -/
def Untangled (s : Store) : Prop := ∀ id row, s.documents.get? id = some row →
  row.kind = .fragment → (((s.directives .document).usesOf id).filter
    (·.2.name == Framework.componentFieldTag)).length ≤ 1

/-- Where a declaration comes from. -/
theorem mem_componentDeclarations_iff {d : Declaration} (h : d ∈ s.componentDeclarations) :
    ∃ row source, s.documents.get? d.document = some row ∧ row.kind = .fragment ∧
      row.name = d.name ∧ ∃ u ∈ (s.directives .document).usesOf d.document,
        u.2.name = Framework.componentFieldTag ∧ s.sources.get? row.source = some source ∧
        d = {
          document := d.document
          name := row.name
          condition := row.condition?.getD ""
          inline := source.inline
          prop := (s.textArgument? .document u.1 Framework.propArgument).getD ""
          field := (s.textArgument? .document u.1 Framework.fieldArgument).getD ""
          location :=
            .ofPosition source.filepath source.offsetLine source.offsetColumn u.2.position } := by
  obtain ⟨⟨id, row⟩, hrow, h⟩ := List.mem_flatMap.mp h
  simp only at h
  split at h
  · next hk =>
    obtain ⟨⟨use, u⟩, hu, h⟩ := List.mem_filterMap.mp h
    simp only [Option.ite_none_right_eq_some, Option.map_eq_some_iff] at h
    obtain ⟨htag, source, hsource, rfl⟩ := h
    exact ⟨row, source, get?_of_mem hrow, hk, rfl, (use, u), hu, beq_iff_eq.mp htag,
      hsource, rfl⟩
  · cases h

theorem eq_of_length_le_one {α : Type} {l : List α} (h : l.length ≤ 1) {a b : α} (ha : a ∈ l)
    (hb : b ∈ l) : a = b := by
  match l, h with
  | [x], _ => rw [List.mem_singleton.mp ha, List.mem_singleton.mp hb]

theorem Untangled.eq_of_document_eq (h : s.Untangled) {d e : Declaration}
    (hd : d ∈ s.componentDeclarations) (he : e ∈ s.componentDeclarations)
    (hde : e.document = d.document) : e = d := by
  obtain ⟨row, source, hrow, hk, _, u, hu, htag, hsource, hd⟩ := mem_componentDeclarations_iff hd
  obtain ⟨row', source', hrow', _, _, u', hu', htag', hsource', he⟩ :=
    mem_componentDeclarations_iff he
  rw [hde] at hrow' hu' he
  obtain rfl := Option.some.inj (hrow.symm.trans hrow')
  obtain rfl := Option.some.inj (hsource.symm.trans hsource')
  have same : u' = u := eq_of_length_le_one (h _ _ hrow hk)
    (List.mem_filter.mpr ⟨hu', beq_iff_eq.mpr htag'⟩)
    (List.mem_filter.mpr ⟨hu, beq_iff_eq.mpr htag⟩)
  rw [he, hd, same]

theorem Untangled.discoverComponentFields (h : s.Untangled) (backed : s.Backed) :
    s.discoverComponentFields.1.Backed := by
  refine foldl_registerGroup_backed _ backed (fun g hg d hd => ?_)
    (componentGroups_pairwise fun d hd e he hde => ?_)
  · obtain ⟨key, _, rfl⟩ := List.mem_map.mp hg
    have hm := (List.mem_filter.mp (List.mem_filter.mp hd).1).1
    obtain ⟨row, _, hrow, hk, hname, _⟩ := mem_componentDeclarations_iff hm
    exact ⟨row, hrow, hk, hname⟩
  · exact h.eq_of_document_eq (List.mem_filter.mp hd).1 (List.mem_filter.mp he).1 hde

/-! ## Validation -/

/-- Only the lists differ, and not in their names. -/
def Repages (s t : Store) : Prop :=
  Relists s t ∧ t.lists.rows.map (·.name) = s.lists.rows.map (·.name)

theorem Repages.refl (s : Store) : Repages s s := ⟨.refl s, rfl⟩

theorem Repages.trans (h : Repages s s') (h' : Repages s' s'') : Repages s s'' :=
  ⟨h.1.trans h'.1, h'.2.trans h.2⟩

theorem Repages.symm (h : Repages s s') : Repages s' s := ⟨h.1.symm, h.2.symm⟩

theorem checkPaging_repages {outcome outcome' : Store × Diagnostics} {entry : Int × ListRow}
    (h : Repages s outcome.1) (hc : Rule.checkPaging outcome entry = .ok outcome') :
    Repages s outcome'.1 :=
  checkPaging_keeps h (fun p => ⟨h.1.trans rfl,
    (map_rows_modify _ _ (Rule.record p) _ fun _ => rfl).trans h.2⟩) hc

theorem generatedFragments_of_names
    (h : s'.lists.rows.map (·.name) = s.lists.rows.map (·.name)) :
    Rule.generatedFragments s' = Rule.generatedFragments s := by
  have key : ∀ t : Store, Rule.generatedFragments t = (t.lists.rows.map (·.name)).flatMap fun n =>
      if n.isEmpty then [] else Framework.operationEndings.map (n ++ ·) := fun t => by
    rw [List.flatMap_map]
    rfl
  rw [key, key, h]

/-- A spread names a fragment, or will do so. -/
def Promised (s : Store) : Prop := ∀ q ∈ s.placements.rows, ∀ row,
  s.selections.get? q.child = some row → row.kind = .fragment →
    row.name ∈ Rule.generatedFragments s ∨ s.HasFragment row.name

/-- The rules look at one use of a spread for all that share its spot. -/
theorem exists_mem_spreadsInOrder
    (hs : ∀ q ∈ s.placements.rows, s.documents.contains q.document) {q : Placement}
    (hq : q ∈ s.placements.rows) {row : SelectionRow} (hrow : s.selections.get? q.child = some row)
    (hk : row.kind = .fragment) :
    ∃ u ∈ Rule.spreadsInOrder s, u ∈ s.uses ∧ u.id = q.child ∧ u.selection = row := by
  obtain ⟨d, hd⟩ := contains_iff.mp (hs q hq)
  have hu : (⟨q.child, row, q.document, d, q.parent?, q.position⟩ : Use) ∈ s.spreadUses :=
    List.mem_filter.mpr ⟨List.mem_filterMap.mpr ⟨q, hq, by simp only [hrow, hd]⟩,
      decide_eq_true hk⟩
  obtain ⟨u, hu, hkey⟩ := exists_mem_distinctBy
    (fun u : Use => (u.id, u.document.source, u.position)) ((mem_sortBy_iff ..).mpr hu)
  have hid : u.id = q.child := congrArg (·.1) hkey
  have hm := (List.mem_filter.mp ((mem_sortBy_iff ..).mp (mem_distinctBy hu))).1
  refine ⟨u, hu, hm, hid, ?_⟩
  obtain ⟨q', _, hq'⟩ := List.mem_filterMap.mp hm
  split at hq'
  · next r _ hr _ =>
    cases hq'
    rw [show q'.child = q.child from hid, hrow] at hr
    exact (Option.some.inj hr).symm
  · cases hq'

theorem promised_of_unknownFragments
    (hs : ∀ q ∈ s.placements.rows, s.documents.contains q.document) {config : Config}
    (h : Rule.unknownFragments.run config s = .ok (s', [])) : s.Promised := by
  intro q hq row hrow hk
  obtain ⟨found, hcheck, h⟩ := bind_eq_ok.mp h
  cases h
  obtain ⟨u, hu, _, _, rfl⟩ := exists_mem_spreadsInOrder hs hq hrow hk
  have key := reportEach_eq_nil hcheck hu
  simp only [Bool.or_eq_true, decide_eq_true_eq, ite_eq_left_iff, reduceCtorEq, imp_false,
    Classical.not_not] at key
  refine key.imp_right fun hfind => ?_
  obtain ⟨e, he⟩ := Option.isSome_iff_exists.mp hfind
  exact hasFragment_of_findDocument he

theorem Promised.repages (h : s.Promised) (hr : Repages s s') : s'.Promised := by
  have names := generatedFragments_of_names hr.2
  have rest : s' = { s with lists := s'.lists } := hr.1
  have hplacements : s'.placements = s.placements := by rw [rest]
  have hselections : s'.selections = s.selections := by rw [rest]
  have hdocuments : s'.documents = s.documents := by rw [rest]
  intro q hq row hrow hk
  rw [names]
  exact (h q (hplacements ▸ hq) row (hselections ▸ hrow) hk).imp_right
    (·.mono fun d hd => hdocuments ▸ hd)

/-! ## List operations -/

theorem Generated.hasFragment {n : Nat} {Field : SelectionRow → Prop} (h : Generated n Field s s')
    {name : String} (hn : s.HasFragment name) : s'.HasFragment name :=
  hn.mono fun _ hd => h.documents.mem_rows hd

section

variable (s : Store) (l : ListRow) (p : Position)

theorem addListFragment_hasFragment (ending : String) :
    (s.addListFragment l p ending).1.HasFragment (l.name ++ ending) :=
  ⟨_, mem_rows_of_get? (get?_push_nextId ..), rfl, rfl⟩

theorem appendFields_hasFragment {document : Int} (hd : 0 < document) (typeName : String)
    (index : Int) (fields : List String) {name : String} (h : s.HasFragment name) :
    (appendFields document typeName p index s fields).HasFragment name := by
  have generated : Generated 0 (fun _ => True) s
      (appendFields document typeName p index s fields) :=
    appendFields_generated typeName p fields hd (fun _ _ => trivial) index s
  exact generated.hasFragment h

theorem addRecordFragment_hasFragment (ending : String) :
    (addRecordFragment l p s ending).HasFragment (l.name ++ ending) := by
  have pos : (0 : Int) < s.documents.nextId := by
    have := s.documents.issued_lt_nextId
    omega
  have copied : Generated 0 (fun _ => True) (s.addListFragment l p ending).1
      ((s.addListFragment l p ending).1.copyBelow l.document l.node s.documents.nextId) :=
    copyBelow_generated _ _ pos
  exact appendFields_hasFragment _ p pos _ _ _
    (copied.hasFragment (addListFragment_hasFragment s l p ending))

theorem addRemoveFragment_hasFragment :
    (addRemoveFragment l p s).HasFragment (l.name ++ Framework.removeEnding) := by
  refine appendFields_hasFragment _ p ?_ _ _ _ (addListFragment_hasFragment s l p _)
  have := s.documents.issued_lt_nextId
  change 0 < s.documents.nextId
  omega

end

theorem addListOperations_hasFragment (s : Store) (l : ListRow) {ending : String}
    (he : ending ∈ Framework.operationEndings) :
    (s.addListOperations l).HasFragment (l.name ++ ending) := by
  have recorded : ∀ (t : Store) (e : String),
      Generated 0 (fun _ => True) t (addRecordFragment l (s.listPosition l) t e) := fun t e =>
    addRecordFragment_generated (Nat.zero_le _) (fun _ _ => trivial) e
  have removed : ∀ t : Store,
      Generated 0 (fun _ => True) t (addRemoveFragment l (s.listPosition l) t) := fun t =>
    addRemoveFragment_generated (Nat.zero_le _) fun _ _ => trivial
  have deleted : ∀ t : Store, Generated 0 (fun _ => True) t (t.addDeleteDirective l.nodeType) :=
    fun t => addDeleteDirective_generated t l.nodeType
  simp only [Framework.operationEndings, List.mem_cons, List.not_mem_nil, or_false] at he
  rcases he with rfl | rfl | rfl
  · exact (deleted _).hasFragment ((removed _).hasFragment ((recorded _ _).hasFragment
      (addRecordFragment_hasFragment s l _ _)))
  · exact (deleted _).hasFragment ((removed _).hasFragment
      (addRecordFragment_hasFragment _ l _ _))
  · exact (deleted _).hasFragment (addRemoveFragment_hasFragment _ l _)

theorem generateListOperations_hasFragment {name : String}
    (h : name ∈ Rule.generatedFragments s) : s.generateListOperations.1.HasFragment name := by
  obtain ⟨l, hl, h⟩ := List.mem_flatMap.mp h
  split at h
  · cases h
  · next hname =>
    obtain ⟨ending, he, rfl⟩ := List.mem_map.mp h
    have hm : l ∈ s.lists.rows.filter fun l => !l.name.isEmpty :=
      List.mem_filter.mpr ⟨hl, by simpa using hname⟩
    obtain ⟨before, after, hsplit⟩ := List.append_of_mem hm
    rw [generateListOperations, hsplit, List.foldl_append, List.foldl_cons]
    refine List.foldlRecOn (motive := fun t : Store => t.HasFragment (l.name ++ ending)) after _
      (addListOperations_hasFragment _ l he) fun t ht k _ => ?_
    have generated : Generated 0 (fun _ => True) t (t.addListOperations k) :=
      addListOperations_generated (Nat.zero_le _) fun _ _ => trivial
    exact generated.hasFragment ht

theorem Backed.generated {n : Nat} {Field : SelectionRow → Prop} (backed : s.Backed)
    (h : Generated n Field s s') : s'.Backed := by
  intro e he
  rw [h.rest] at he
  obtain ⟨row, hrow, hk⟩ := backed e he
  exact ⟨row, h.documents.get?_of_get? hrow, hk⟩

theorem Promised.generateListOperations (h : s.Promised) (hs : s.Closed) :
    s.generateListOperations.1.Anchored := by
  have generated : Generated s.documents.issued (fun row => row.kind = .field) s
      s.generateListOperations.1 :=
    generateListOperations_generated fun _ _ _ _ _ => rfl
  have old : ∀ q₀ ∈ s.placements.rows, ∀ row,
      s.generateListOperations.1.selections.get? q₀.child = some row → row.kind = .fragment →
      s.generateListOperations.1.HasFragment row.name := by
    intro q₀ hq₀ row hrow hk
    have hle := le_issued_of_contains (hs.placements q₀ hq₀).2.1
    rw [generated.selections.get?_of_le hle] at hrow
    exact (h q₀ hq₀ row hrow hk).elim generateListOperations_hasFragment generated.hasFragment
  intro q hq row hrow hk
  rcases generated.placements q hq with hq | ⟨_, hnew | ⟨q₀, hq₀, hc⟩⟩
  · exact old q hq row hrow hk
  · rcases generated.selections.mem_entries (mem_of_get? hrow) with hold | ⟨_, hfield⟩
    · have hle := le_issued (get?_of_mem hold)
      omega
    · rw [hfield] at hk
      cases hk
  · exact old q₀ hq₀ row (hc ▸ hrow) hk

/-! ## Spreads of component fields -/

/-- `t` has some selections made spreads of fragments. -/
structure Aims (s t : Store) : Prop where
  documents : t.documents = s.documents
  placements : t.placements = s.placements
  rows : ∀ x row, t.selections.get? x = some row → row.kind = .fragment →
    s.selections.get? x = some row ∨ s.HasFragment row.name

theorem Aims.refl (s : Store) : Aims s s := ⟨rfl, rfl, fun _ _ h _ => .inl h⟩

theorem Aims.anchored (h : Aims s s') (hs : s.Anchored) : s'.Anchored := by
  intro q hq row hrow hk
  refine HasFragment.mono ?_ fun d hd => h.documents ▸ hd
  rcases h.rows q.child row hrow hk with hold | hnew
  · exact hs q (h.placements ▸ hq) row hold hk
  · exact hnew

theorem Aims.spreadComponent (h : Aims s s') (x : Int) {c : ComponentField}
    (hc : s.HasFragment (Framework.componentFragment c.type c.field)) :
    Aims s (s'.spreadComponent (x, c)) := by
  have marked : Aims s { s' with selections := s'.selections.modify x fun _ =>
      ⟨Framework.componentFragment c.type c.field, none, .fragment, none⟩ } := by
    refine ⟨h.documents, h.placements, fun y row hrow hk => ?_⟩
    simp only [get?_modify] at hrow
    split at hrow
    · obtain ⟨_, _, rfl⟩ := Option.map_eq_some_iff.mp hrow
      exact .inr hc
    · exact h.rows y row hrow hk
  rw [Store.spreadComponent]
  simp only
  split
  · exact marked
  · refine List.foldlRecOn (motive := fun t => Aims s t) _ _ ?_ fun t ht a _ =>
      ⟨ht.documents, ht.placements, ht.rows⟩
    exact ⟨marked.documents, marked.placements, marked.rows⟩

theorem exists_of_mem_componentSelections {found : Int × ComponentField}
    (h : found ∈ s.componentSelections) : ∃ e ∈ s.componentFields.rows, e.2 = found.2 := by
  obtain ⟨⟨x, row⟩, _, hc⟩ := List.mem_flatMap.mp h
  obtain ⟨⟨d, c⟩, he, hc⟩ := List.mem_filterMap.mp hc
  simp only [Option.ite_none_right_eq_some, Option.some.injEq] at hc
  exact ⟨(d, c), he, by rw [← hc.2]⟩

theorem Backed.aims (backed : s.Backed) : Aims s s.spreadComponentFields.1 := by
  rw [spreadComponentFields]
  refine List.foldlRecOn (motive := fun t => Aims s t) _ _ (.refl s) fun t ht found hfound => ?_
  obtain ⟨e, he, hc⟩ := exists_of_mem_componentSelections hfound
  have there := backed.hasFragment he
  rw [hc] at there
  exact ht.spreadComponent found.1 there

end Store

namespace Inlining

open Store

variable {s s₀ : Store} {G : Int → Prop} {t : Task} {p p' : Progress} {spread : Int × String}

/-! ## Inlining -/

/-- Every spread names a fragment, and so does every name of a clone. -/
structure Aimed (s : Store) (clones : List String) : Prop where
  anchored : s.Anchored
  clones : ∀ name ∈ clones, s.HasFragment name

/-- What is placed after a visit, with its directives and its name: as it was placed before, or led
to a clone, or copied from the template. -/
theorem Visit.origin_name (hv : Visit G t p spread p') (h : Held G s₀ p.clones p.null? p.store)
    (hx : IsSpread p.store spread) {q' : Placement} (hq : q' ∈ p'.store.placements.rows)
    {row' : SelectionRow} (hrow' : p'.store.selections.get? q'.child = some row') :
    ∃ q ∈ p.store.placements.rows,
      (q' = q ∨ q'.document = p.store.documents.nextId ∧
        ∃ row, p.store.findDocument spread.2 .fragment = some (q.document, row)) ∧
      p'.store.nodes .selection q'.child = p.store.nodes .selection q.child ∧
      ∃ row, p.store.selections.get? q.child = some row ∧ row'.kind = row.kind ∧
        (row'.name = row.name ∨ row'.name ∈ p'.clones) := by
  obtain ⟨q, hq, alike, same, hwhere⟩ := hv.origin h hx hq
  have here := (h.sound.closed.placements q hq).2.1
  obtain ⟨row, hrow, hk, hn⟩ := hv.name here (same.symm.trans hrow')
  exact ⟨q, hq, hwhere, alike.nodes, row, hrow, hk, hn.imp (·.1) (·.2.2)⟩

theorem Visit.hasFragment_clone (hv : Visit G t p spread p') {name : String}
    (hn : name ∈ p'.clones) : name ∈ p.clones ∨ p'.store.HasFragment name := by
  cases hv with
  | settled => exact .inl hn
  | led => exact .inl hn
  | @made target row _ _ _ _ _ s₁ s₂ _ _ _ cloned bound =>
    refine (List.mem_append.mp hn).imp_right fun hn => ?_
    obtain rfl := List.mem_singleton.mp hn
    have hdocuments : s₂.documents = s₁.documents := by rw [bound.same]
    refine ⟨{ row with name := name, kind := .fragment }, ?_, rfl, rfl⟩
    simp only [hdocuments, cloned.documents]
    exact mem_rows_of_get? (get?_push_nextId ..)

theorem Visit.aimed (hv : Visit G t p spread p') (h : Held G s₀ p.clones p.null? p.store)
    (hx : IsSpread p.store spread) (aimed : Aimed p.store p.clones) : Aimed p'.store p'.clones := by
  have kept : ∀ {name : String}, p.store.HasFragment name → p'.store.HasFragment name :=
    fun hn => hn.mono fun _ hd => (hv.advances h).documents.mem_rows hd
  have clones : ∀ name ∈ p'.clones, p'.store.HasFragment name := fun name hn =>
    (hv.hasFragment_clone hn).elim (fun hold => kept (aimed.clones name hold)) id
  refine ⟨fun q' hq' row' hrow' hk => ?_, clones⟩
  obtain ⟨q, hq, _, _, row, hrow, hkind, same | hclone⟩ := hv.origin_name h hx hq' hrow'
  · exact same ▸ kept (aimed.anchored q hq row hrow (hkind ▸ hk))
  · exact clones _ hclone

/-- What substitutions and visits keep of the store and the names of the clones holds all along a
run. -/
theorem Handed.run_keeps {P : Store → List String → Prop} (h : Handed G s₀) (start : P s₀ [])
    (opened : ∀ s u (t : Task) clones, Substituted G s t.document (s.meaning t.scope) u →
      s.Sound G → P s clones → P u clones)
    (visited : ∀ t p spread p', Held G s₀ p.clones p.null? p.store → IsSpread p.store spread →
      Visit G t p spread p' → P p.store p.clones → P p'.store p'.clones) (n : Nat) :
    P ((Inlining.start s₀).run n).store ((Inlining.start s₀).run n).clones := by
  refine (h.running.run_induction h.sound.closed h.lasting
    (P := fun w => P w.store w.clones) start (fun w hr hP => ?_) n).2
  cases hnext : w.next? with
  | none => rwa [Inlining.step, hnext]
  | some e =>
    obtain ⟨u, p, hst⟩ := hr.stepped h.sound.closed h.lasting hnext
    have performed := hst.performed
    rw [hst.step]
    refine performed.visits.induction (P := fun _ q => P q.store q.clones) h.sound.closed
      performed.start (opened _ _ _ _ performed.opened hr.held.sound hP) ?_
    exact fun spread rest q q' hw hv hq =>
      visited _ _ _ _ hw.held (hw.spreads spread List.mem_cons_self).1 hv hq

theorem Handed.aimed (h : Handed G s₀) (anchored : s₀.Anchored) :
    (finished s₀).store.Anchored := by
  have start : Aimed s₀ [] := ⟨anchored, fun _ hn => absurd hn List.not_mem_nil⟩
  refine (h.run_keeps (P := Aimed) start ?_ ?_ (fuelFor s₀)).anchored
  · intro s u t clones hu _ aimed
    rw [hu.rest]
    exact ⟨aimed.anchored, aimed.clones⟩
  · exact fun t p spread p' held hx hv aimed => hv.aimed held hx aimed

end Inlining

namespace Store

open Grammar

variable {s t : Store}

/-! ## Loading -/

/-- The directives that a document shows are those that stand on it. -/
theorem map_name_directiveNodes {site : Site} {x : Int} {ns : List DirectiveNode}
    (h : s.directiveNodes site x = .ok ns) :
    ns.map (·.name) = ((s.directives site).usesOf x).map (·.2.name) := by
  rw [directiveNodes] at h
  generalize (s.directives site).usesOf x = us at h ⊢
  induction us generalizing ns with
  | nil =>
    cases h
    rfl
  | cons u us ih =>
    rw [List.mapM_cons] at h
    obtain ⟨n, hn, h⟩ := bind_eq_ok.mp h
    obtain ⟨rest, hrest, h⟩ := bind_eq_ok.mp h
    obtain ⟨as, _, hn⟩ := bind_eq_ok.mp hn
    cases hn
    cases h
    rw [List.map_cons, List.map_cons, ih hrest]

/-- Only a fragment is a document of that kind. -/
theorem isOperation_of_mem_definitions {source : Source} {o : Operation}
    (h : .operation o ∈ source.definitions) : o.kind.isOperation := by
  rw [Source.definitions] at h
  split at h
  · cases h
  · next ds hp =>
    split at h
    · split at h
      · cases List.mem_singleton.mp h
      · cases h
    · exact (proper_of_parseDocument hp _ h).kind

/-- Every document that loading brings shows a definition of its source. -/
theorem exists_outline (hs : s.Closed) (new : s.documents.entries = []) {id : Int}
    {row : DocumentRow} (hrow : s.loadSources.1.documents.get? id = some row) :
    ∃ e ∈ s.sources.entries, ∃ d ∈ e.2.definitions,
      s.loadSources.1.readDocument (id, row) = .ok (d.outline s.schema e.1) := by
  obtain ⟨rows, entries, reads⟩ := (loadSources_writes hs).shows
  have reads := reads _ (.refl _ _ _)
  generalize s.loadSources.1 = t at *
  have hm : (id, row) ∈ rows := by
    have hm := mem_of_get? hrow
    rwa [entries, new, List.nil_append] at hm
  obtain ⟨outline, houtline, hread⟩ := exists_mem_of_mapM reads hm
  obtain ⟨e, he, houtline⟩ := List.mem_flatMap.mp houtline
  obtain ⟨d, hd, rfl⟩ := List.mem_map.mp houtline
  exact ⟨e, he, d, hd, hread⟩

theorem exists_definition (hs : s.Closed) (new : s.documents.entries = []) {id : Int}
    {row : DocumentRow} (hrow : s.loadSources.1.documents.get? id = some row) :
    ∃ e ∈ s.sources.entries, ∃ d ∈ e.2.definitions, row = (d.outline s.schema e.1).row ∧
      s.loadSources.1.directiveNodes .document id = .ok (d.outline s.schema e.1).directives ∧
      (s.loadSources.1.variablesOf id).mapM s.loadSources.1.readVariable =
        .ok (d.outline s.schema e.1).declarations := by
  obtain ⟨e, he, d, hd, hread⟩ := exists_outline hs new hrow
  obtain ⟨declared, hdeclared, hread⟩ := bind_eq_ok.mp hread
  obtain ⟨nodes, hnodes, hread⟩ := bind_eq_ok.mp hread
  obtain ⟨_, _, hread⟩ := bind_eq_ok.mp hread
  have hread := Except.ok.inj hread
  exact ⟨e, he, d, hd, congrArg Outline.row hread,
    hnodes.trans (congrArg Except.ok (congrArg Outline.directives hread)),
    hdeclared.trans (congrArg Except.ok (congrArg Outline.declarations hread))⟩

theorem loadSources_untangled (hs : s.Closed) (new : s.documents.entries = [])
    (single : ∀ e ∈ s.sources.entries, ∀ f, Definition.fragment f ∈ e.2.definitions →
      (f.directives.filter (·.name == Framework.componentFieldTag)).length ≤ 1) :
    s.loadSources.1.Untangled := by
  intro id row hrow hk
  obtain ⟨e, he, d, hd, hrow', hnodes, _⟩ := exists_definition hs new hrow
  cases d with
  | operation o =>
    have hkind : o.kind = .fragment := (congrArg DocumentRow.kind hrow').symm.trans hk
    have := isOperation_of_mem_definitions hd
    rw [hkind] at this
    cases this
  | fragment f =>
    have names := map_name_directiveNodes hnodes
    have count : ∀ {α : Type} (l : List α) (g : α → String),
        (l.filter (g · == Framework.componentFieldTag)).length =
          ((l.map g).filter (· == Framework.componentFieldTag)).length := by
      intro α l g
      rw [List.filter_map, List.length_map]
      rfl
    rw [count _ fun u : Int × DirectiveUse => u.2.name, ← names]
    have same : (f.directives.map Directive.node).map (·.name) = f.directives.map (·.name) := by
      rw [List.map_map]
      rfl
    rw [show ((Definition.fragment f).outline s.schema e.1).directives =
      f.directives.map Directive.node from rfl, same, ← count]
    exact single e he f hd

/-- Only the types of variables differ, and what marks them. -/
def Retypes (s t : Store) : Prop := t = { s with
  declarations := t.declarations, declarationDirectives := t.declarationDirectives
  values := t.values }

theorem Retypes.trans {u : Store} (h : Retypes s t) (h' : Retypes t u) : Retypes s u := by
  unfold Retypes at h h' ⊢
  rw [h', h]

theorem retypeScalars_retypes (s : Store) (scalars : NameMap String) :
    Retypes s (s.retypeScalars scalars).1 := by
  refine List.foldlRecOn (motive := fun outcome : Store × Nat => Retypes s outcome.1) scalars _
    rfl fun outcome ht scalar _ => ?_
  exact List.foldlRecOn (motive := fun t => Retypes s t) _ _ ht fun t ht entry _ => ht.trans rfl

theorem Untangled.retypes (h : s.Untangled) (hr : Retypes s t) : t.Untangled := by
  rw [hr]
  exact h

theorem Backed.retypes (h : s.Backed) (hr : Retypes s t) : t.Backed := by
  rw [hr]
  exact h

theorem Backed.relists (h : s.Backed) (hr : Relists s t) : t.Backed := by
  rw [hr]
  exact h

end Store

namespace Project

open Grammar Store

variable {p : Project} {s₀ s : Store}

theorem prepare_sources (h : p.prepare = .ok s) : s.sources.rows = p.sources := by
  obtain ⟨t, hl, rfl⟩ := loadSchema_of_prepare h
  obtain ⟨_, _, schema, rfl⟩ := loadSchema_eq_ok hl
  rw [addSources_rows]
  rfl

/-- No fragment of the project carries two component field directives. -/
def SingleFields (p : Project) : Prop := ∀ source ∈ p.sources, ∀ f : Fragment,
  .fragment f ∈ source.definitions →
    (f.directives.filter (·.name == Framework.componentFieldTag)).length ≤ 1

/-- Validation changes nothing but the lists, and not their names. -/
theorem validate_repages {s₁ s₂ : Store} {swept ruled : Diagnostics}
    (hswept : Rule.runAll Rule.sweeps p.config s₁ = .ok (s₂, swept))
    (hruled : Rule.runAll Rule.rules p.config s₂ = .ok (s, ruled)) :
    Repages s₁ s₂ ∧ Repages s₂ s := by
  have paging : ∀ s, ∀ r ∈ Rule.sweeps ++ Rule.rules, r.Keeps (Repages s) := fun s =>
    Rule.keeps_of_mem fun _ _ _ => checkPaging_repages
  exact ⟨Rule.runAll_induction (fun r hr => paging s₁ r (List.mem_append_left _ hr)) (.refl s₁)
      hswept,
    Rule.runAll_induction (fun r hr => paging s₂ r (List.mem_append_right _ hr)) (.refl s₂) hruled⟩

/-- If the analysis finds nothing wrong, no rule does. A rule sees the store as it is in the end, but
for what is known of the lists. -/
theorem rule_clean (analysed : p.analyse s₀ = .ok (s, [])) {r : Rule}
    (hr : r ∈ Rule.sweeps ++ Rule.rules) :
    ∃ u v, Repages u s ∧ r.run p.config u = .ok (v, []) := by
  obtain ⟨_, _, s₁, s₂, _, swept, ruled⟩ := analyse_clean analysed
  obtain ⟨first, second⟩ := validate_repages swept ruled
  have paging : ∀ s, ∀ r ∈ Rule.sweeps ++ Rule.rules, r.Keeps (Repages s) := fun s =>
    Rule.keeps_of_mem fun _ _ _ => checkPaging_repages
  rcases List.mem_append.mp hr with hr | hr
  · obtain ⟨u, v, hu, run⟩ := Rule.runAll_clean .refl (fun _ _ _ => .trans)
      (fun s r hr => paging s r (List.mem_append_left _ hr)) swept r hr
    exact ⟨u, v, hu.symm.trans (first.trans second), run⟩
  · obtain ⟨u, v, hu, run⟩ := Rule.runAll_clean .refl (fun _ _ _ => .trans)
      (fun s r hr => paging s r (List.mem_append_right _ hr)) ruled r hr
    exact ⟨u, v, hu.symm.trans second, run⟩

theorem prepare_untangled (prepared : p.prepare = .ok s₀) (single : p.SingleFields) :
    s₀.loadSources.1.Untangled := by
  refine loadSources_untangled (prepare_ready prepared).1.closed
    (by rw [prepare_rest prepared]; rfl) fun e he => single e.2 ?_
  rw [← prepare_sources prepared]
  exact mem_rows_of_get? (get?_of_mem he)

/-- No component field is entered while sources are loaded. -/
theorem componentFields_of_prepare (prepared : p.prepare = .ok s₀) :
    s₀.loadSources.1.componentFields.rows = [] := by
  have appends := (loadSources_writes (prepare_ready prepared).1.closed).appends s₀.marks s₀.marks
    (fun _ => Nat.le_refl _) (Nat.le_refl _)
  rw [appends.componentFields, prepare_rest prepared]
  rfl

theorem analyse_promised (prepared : p.prepare = .ok s₀) (analysed : p.analyse s₀ = .ok (s, []))
    (single : p.SingleFields) : s.Promised ∧ s.Backed := by
  have ready₀ := prepare_ready prepared
  have closed := (analyse_ready ready₀.1 ready₀.2 analysed).closed
  have untangled := prepare_untangled prepared single
  have backed : s₀.loadSources.1.Backed := by
    intro e he
    rw [componentFields_of_prepare prepared] at he
    cases he
  obtain ⟨_, _, s₁, s₂, listed, swept, ruled⟩ := analyse_clean analysed
  obtain ⟨first, second⟩ := validate_repages swept ruled
  have discovered := (untangled.retypes (retypeScalars_retypes _ _)).discoverComponentFields
    (backed.retypes (retypeScalars_retypes _ p.config.runtimeScalars))
  obtain ⟨u, v, same, run⟩ := rule_clean analysed (r := Rule.unknownFragments)
    (by simp [Rule.sweeps])
  have placed : ∀ q ∈ u.placements.rows, u.documents.contains q.document := by
    rw [show u = _ from same.symm.1]
    exact fun q hq => (closed.placements q hq).2.2
  exact ⟨(promised_of_unknownFragments placed run).repages same,
    discovered.relists ((discoverLists_relists listed).trans (first.trans second).1)⟩

theorem rewrite_anchored (h : s.Ready NoBorrowers) (promised : s.Promised) (backed : s.Backed) :
    (p.rewrite s).Anchored := by
  have paged := preparePagination_paging p.config h
  change (s.preparePagination p.config).1.generateListOperations.1.spreadComponentFields.1.Anchored
  generalize (s.preparePagination p.config).1 = s₁ at *
  have promised₁ : s₁.Promised := by
    rw [paged.rest]
    exact promised
  have backed₁ : s₁.Backed := by
    rw [paged.rest]
    exact backed
  have generated : Generated s₁.documents.issued (fun _ => True) s₁ s₁.generateListOperations.1 :=
    generateListOperations_generated fun _ _ _ _ _ => trivial
  exact (backed₁.generated generated).aims.anchored
    (promised₁.generateListOperations paged.ready.closed)

/-- If a compilation finds nothing wrong and no fragment carries two component field directives,
every spread in its store names a fragment that is there. -/
theorem spreads_anchored {cancelled : Bool} {c : Compiled} (h : p.compile cancelled = .ok c)
    (clean : c.diagnostics = []) (single : p.SingleFields) : c.store.Anchored := by
  obtain ⟨s₀, s, prepared, analysed, hstore⟩ := compile_clean h clean
  obtain ⟨promised, backed⟩ := analyse_promised prepared analysed single
  obtain ⟨G, handed⟩ := Inlining.handed (handover?_of_analyse prepared analysed rfl)
  have ready := analyse_ready (prepare_ready prepared).1 (prepare_ready prepared).2 analysed
  rw [hstore, Inlining.inlineArguments_store]
  exact handed.aimed (rewrite_anchored ready promised backed)

/-! ## A gallery -/

/-- A list whose records select a component field, and a mutation that spreads an operation of the
list. The fragment of the component field has an argument, so its spreads are led to a clone. -/
def gallery : Project where
  schema := "type Query \x7b user: User users: [User] \x7d
    type Mutation \x7b addUser: User \x7d
    type User \x7b id: ID avatar(size: Int): String \x7d"
  sources := [{
    filepath := "gallery.graphql"
    content := "fragment Face on User @componentField(prop: \"user\", field: \"Avatar\")
          @arguments(size: \x7b type: \"Int!\" \x7d) \x7b
        avatar(size: $size)
      \x7d
      fragment Plain on User \x7b id \x7d
      query Q \x7b users @list(name: \"All\") \x7b id Avatar(size: 3) \x7d \x7d
      mutation M \x7b addUser \x7b ...All_insert ...Plain \x7d \x7d" }]

set_option maxRecDepth 10000 in
def gallerySpelling : Spelling gallery := ⟨_, [_], rfl, rfl⟩

/-- The fragments among the definitions of a text. -/
def fragmentsOf (cs : List Char) : List Fragment :=
  match documentChars cs with
  | .error _ => []
  | .ok ds => ds.filterMap fun
    | .fragment f => some f
    | .operation _ => none

theorem singleFields_of_spelling {p : Project} (x : Spelling p)
    (inline : ∀ source ∈ p.sources, source.inline = false)
    (single : ∀ cs ∈ x.sources, ∀ f ∈ fragmentsOf cs,
      (f.directives.filter (·.name == Framework.componentFieldTag)).length ≤ 1) :
    p.SingleFields := by
  intro source hsource f hf
  have hm : source.content ∈ x.sources.map String.ofList :=
    x.sources_eq ▸ List.mem_map_of_mem hsource
  obtain ⟨cs, hcs, hcontent⟩ := List.mem_map.mp hm
  refine single cs hcs f ?_
  rw [Source.definitions, ← hcontent, parseDocument_ofList, inline source hsource] at hf
  rw [fragmentsOf]
  cases hd : documentChars cs with
  | error _ =>
    rw [hd] at hf
    cases hf
  | ok ds =>
    rw [hd] at hf
    exact List.mem_filterMap.mpr ⟨_, hf, rfl⟩

/-- After eight tasks the inliner is done, and spreads of three names are placed. -/
def placesSpreads (s : Store) : Bool :=
  let w := (Inlining.start s).run 8
  w.isDone && (distinct (w.store.placements.rows.filterMap fun q =>
    (w.store.selections.get? q.child).bind fun row =>
      if row.kind = .fragment then some row.name else none)).length == 3

set_option maxRecDepth 100000 in
theorem gallery_placesSpreads :
    (gallerySpelling.analysis?.any fun e => placesSpreads (gallery.rewrite e.2)) := by
  decide +kernel

set_option maxRecDepth 100000 in
theorem gallery_singleFields : gallery.SingleFields :=
  singleFields_of_spelling gallerySpelling (by decide) (by decide +kernel)

/-- The spreads of the gallery name fragments: a clone of the one of its component field, an
operation of its list and a fragment of its own. -/
theorem gallery_spreads_anchored : ∃ c, gallery.compile false = .ok c ∧ c.diagnostics = [] ∧
    gallery.SingleFields ∧ c.store.Anchored ∧
    ∃ q ∈ c.store.placements.rows, ∃ row, c.store.selections.get? q.child = some row ∧
      row.kind = .fragment := by
  obtain ⟨s₀, s, prepared, analysed, check⟩ := gallerySpelling.exists_of_any gallery_placesSpreads
  obtain ⟨c, compiled, clean, hstore⟩ := compile_of_analyse prepared analysed
  obtain ⟨G, handed⟩ := Inlining.handed (handover?_of_analyse prepared analysed rfl)
  refine ⟨c, compiled, clean, gallery_singleFields,
    spreads_anchored compiled clean gallery_singleFields, ?_⟩
  obtain ⟨done, names⟩ := Bool.and_eq_true_iff.mp check
  rw [hstore, transform, Inlining.inlineArguments_store, handed.finished_eq done]
  obtain ⟨name, hname⟩ := List.exists_mem_of_length_pos
    (Nat.lt_of_lt_of_eq (by decide) (beq_iff_eq.mp names).symm)
  obtain ⟨q, hq, hrow⟩ := List.mem_filterMap.mp (mem_distinct_iff.mp hname)
  obtain ⟨row, hrow, hkind⟩ := Option.bind_eq_some_iff.mp hrow
  refine ⟨q, hq, row, hrow, ?_⟩
  split at hkind
  · assumption
  · cases hkind

end Project

end GraphDoc
