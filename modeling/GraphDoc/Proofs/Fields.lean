import GraphDoc.Proofs.FragmentArgument.Origins
import GraphDoc.Proofs.Preservation
import GraphDoc.Proofs.Stages

/-!
# Types of fields

The loader gives a field the type `Parent.field` if it knows the parent, and it knows the parent
unless something is selected below a field that the schema does not have. Validation reports such
fields, but component fields are not in the schema until the documents are loaded.
-/

set_option autoImplicit false

namespace GraphDoc

open Table

namespace Store

open Grammar

variable {s s' s'' : Store}

/-! ## Loading -/

/-- A field that the schema does not have. -/
def Unknown (s : Store) (x : Int) : Prop :=
  ∃ row id, s.selections.get? x = some row ∧ row.kind = .field ∧ row.type? = some id ∧
    s.schema.fieldType? id = none

/-- Something is selected below a field that the schema does not have. -/
def Strays (s : Store) : Prop := ∃ q ∈ s.placements.rows, ∃ q' ∈ s.placements.rows,
  q'.parent? = some q.child ∧ s.Unknown q.child

/-- Types have the names of their fields, and fields have types unless something strays. -/
structure Traced (s : Store) : Prop where
  named : ∀ x row, s.selections.get? x = some row → row.kind = .field →
    ∀ id, row.type? = some id → ∃ parent, id = Schema.idOf parent row.name
  typed : ∀ x row, s.selections.get? x = some row → row.kind = .field → row.type? = none → s.Strays

theorem Traced.congr (h : s.Traced) (hx : s'.selections = s.selections)
    (hp : s'.placements = s.placements) (hs : s'.schema = s.schema) : s'.Traced := by
  refine ⟨fun x row hrow => h.named x row (hx ▸ hrow), fun x row hrow hk ht => ?_⟩
  obtain ⟨q, hq, q', hq', hparent, y, id, hy⟩ := h.typed x row (hx ▸ hrow) hk ht
  exact ⟨q, hp ▸ hq, q', hp ▸ hq', hparent, y, id, hx ▸ hs ▸ hy⟩

/-- `s'` has all selections and placements of `s`. -/
structure Widens (s s' : Store) : Prop where
  schema : s'.schema = s.schema
  selections : ∀ x row, s.selections.get? x = some row → s'.selections.get? x = some row
  placements : ∀ q ∈ s.placements.rows, q ∈ s'.placements.rows

theorem Widens.refl (s : Store) : Widens s s := ⟨rfl, fun _ _ h => h, fun _ h => h⟩

theorem Widens.trans (h : Widens s s') (h' : Widens s' s'') : Widens s s'' :=
  ⟨h'.schema.trans h.schema, fun x row hx => h'.selections x row (h.selections x row hx),
    fun q hq => h'.placements q (h.placements q hq)⟩

theorem SameNames.widens (h : SameNames s s') : Widens s s' :=
  ⟨h.schema, fun _ _ hx => h.selections ▸ hx, fun _ hq => h.placements ▸ hq⟩

theorem Widens.unknown (h : Widens s s') {x : Int} (hx : s.Unknown x) : s'.Unknown x := by
  obtain ⟨row, id, hrow, hk, ht, hnone⟩ := hx
  exact ⟨row, id, h.selections x row hrow, hk, ht, h.schema ▸ hnone⟩

theorem Widens.strays (h : Widens s s') (hs : s.Strays) : s'.Strays := by
  obtain ⟨q, hq, q', hq', hparent, hx⟩ := hs
  exact ⟨q, h.placements q hq, q', h.placements q' hq', hparent, h.unknown hx⟩

/-- What is selected below this parent strays. -/
def Below (s : Store) (parent? : Option Int) : Prop :=
  s.Strays ∨ ∃ q ∈ s.placements.rows, parent? = some q.child ∧ s.Unknown q.child

theorem Widens.below (h : Widens s s') {parent? : Option Int} (hb : s.Below parent?) :
    s'.Below parent? := by
  refine hb.imp h.strays ?_
  rintro ⟨q, hq, hparent, hx⟩
  exact ⟨q, h.placements q hq, hparent, h.unknown hx⟩

theorem Traced.directives (h : s.Traced) (site : Site) (document owner : Int)
    (ds : List Directive) : (s.loadDirectives site document owner ds).Traced := by
  have same := loadDirectives_sameNames site document owner s ds
  exact h.congr same.selections same.placements same.schema

section

variable (s : Store) (document : Int) (parent? : Option Int) (index : Int) (p : Position)
  (row : SelectionRow)

theorem mem_placeSelection {q : Placement} :
    q ∈ (s.placeSelection document parent? index p row).1.placements.rows ↔
      q ∈ s.placements.rows ∨ q = ⟨parent?, s.selections.nextId, document, index, p⟩ := by
  have hrows : (s.placeSelection document parent? index p row).1.placements.rows = _ :=
    rows_push ..
  rw [hrows, List.mem_append, List.mem_singleton]

theorem placeSelection_widens : Widens s (s.placeSelection document parent? index p row).1 :=
  ⟨rfl, fun _ _ hx => get?_push_of_get? hx,
    fun _ hq => (mem_placeSelection s document parent? index p row).mpr (.inl hq)⟩

theorem get?_placeSelection {x : Int} {r : SelectionRow}
    (hr : (s.placeSelection document parent? index p row).1.selections.get? x = some r) :
    s.selections.get? x = some r ∨ r = row := by
  have hget : (s.placeSelection document parent? index p row).1.selections.get? x = _ :=
    get?_push ..
  rw [hget] at hr
  split at hr
  · exact .inr (Option.some.inj hr).symm
  · exact .inl hr

end

theorem Traced.placeSelection (h : s.Traced) (document : Int) (parent? : Option Int) (index : Int)
    (p : Position) {row : SelectionRow}
    (named : row.kind = .field → ∀ id, row.type? = some id → ∃ parent,
      id = Schema.idOf parent row.name)
    (typed : row.kind = .field → row.type? = none → s.Below parent?) :
    (s.placeSelection document parent? index p row).1.Traced := by
  have wide := placeSelection_widens s document parent? index p row
  refine ⟨fun x r hr hk => ?_, fun x r hr hk ht => ?_⟩
  · rcases get?_placeSelection s document parent? index p row hr with hr | rfl
    · exact h.named x r hr hk
    · exact named hk
  · rcases get?_placeSelection s document parent? index p row hr with hr | rfl
    · exact wide.strays (h.typed x r hr hk ht)
    · rcases typed hk ht with hs | ⟨q, hq, hparent, hx⟩
      · exact wide.strays hs
      · exact ⟨q, wide.placements q hq, _, (mem_placeSelection ..).mpr (.inr rfl), hparent,
          wide.unknown hx⟩

mutual

theorem loadSelection_traced {document : Int} {s : Store} (h : s.Traced) (scope? : Option String)
    (parent? : Option Int) (index : Int) (hb : scope? = none → s.Below parent?) :
    (x : Selection) → (loadSelection document scope? parent? index s x).Traced ∧
      Widens s (loadSelection document scope? parent? index s x)
  | .field p label? name arguments directives selections => by
    let row : SelectionRow := ⟨name, label?, .field, scope?.map (Schema.idOf · name)⟩
    have wide := placeSelection_widens s document parent? index p row
    have placed : (s.placeSelection document parent? index p row).1.Traced := by
      refine h.placeSelection document parent? index p (fun _ id hid => ?_) fun _ hnone => ?_
      · obtain ⟨parent, _, rfl⟩ := Option.map_eq_some_iff.mp hid
        exact ⟨parent, rfl⟩
      · exact hb (Option.map_eq_none_iff.mp hnone)
    have hrow : (s.placeSelection document parent? index p row).1.selections.get?
        s.selections.nextId = some row := get?_push_nextId ..
    have hq : ⟨parent?, s.selections.nextId, document, index, p⟩ ∈
        (s.placeSelection document parent? index p row).1.placements.rows :=
      (mem_placeSelection ..).mpr (.inr rfl)
    rw [loadSelection]
    -- The row is placed; its arguments and directives change nothing here.
    have same := (foldl_loadFieldArgument_sameNames document s.selections.nextId
      (scope?.map (Schema.idOf · name)) p (s.placeSelection document parent? index p row).1
      arguments).trans (loadDirectives_sameNames .selection document s.selections.nextId _ directives)
    have below : ∀ t, SameNames (s.placeSelection document parent? index p row).1 t →
        ((scope?.map (Schema.idOf · name)).bind t.schema.fieldType?).map (·.name) = none →
        t.Below (some s.selections.nextId) := by
      intro t same hnone
      have hrow := same.widens.selections _ _ hrow
      cases htype : scope?.map (Schema.idOf · name) with
      | none =>
        have traced := placed.congr same.selections same.placements same.schema
        exact .inl (traced.typed _ row hrow rfl htype)
      | some id =>
        rw [htype] at hnone
        exact .inr ⟨_, same.widens.placements _ hq, rfl, row, id, hrow, rfl, htype,
          Option.map_eq_none_iff.mp hnone⟩
    obtain ⟨done, wide'⟩ := @loadSelections_traced document _
      (placed.congr same.selections same.placements same.schema) _ (some s.selections.nextId) 0
      (below _ same) selections
    exact ⟨done, (wide.trans same.widens).trans wide'⟩
  | .inline p condition? directives selections => by
    let row : SelectionRow :=
      ⟨(condition?.orElse fun _ => scope?).getD "", none, .inlineFragment, none⟩
    have wide := placeSelection_widens s document parent? index p row
    have placed : (s.placeSelection document parent? index p row).1.Traced :=
      h.placeSelection document parent? index p (fun hk => nomatch hk) fun hk => nomatch hk
    rw [loadSelection]
    have same := loadDirectives_sameNames .selection document s.selections.nextId
      (s.placeSelection document parent? index p row).1 directives
    have wide₁ := wide.trans same.widens
    have below : (condition?.orElse fun _ => scope?) = none →
        ((s.placeSelection document parent? index p row).1.loadDirectives .selection document
          s.selections.nextId directives).Below (some s.selections.nextId) := by
      intro hnone
      cases condition? with
      | some condition => cases hnone
      | none =>
        rcases hb hnone with hs | ⟨q, hq, hparent, hx⟩
        · exact .inl (wide₁.strays hs)
        · -- The inline fragment itself stands below the field.
          exact .inl ⟨q, wide₁.placements q hq, _, same.widens.placements _
            ((mem_placeSelection ..).mpr (.inr rfl)), hparent, wide₁.unknown hx⟩
    obtain ⟨done, wide'⟩ := @loadSelections_traced document _
      (placed.directives .selection document s.selections.nextId directives)
      (condition?.orElse fun _ => scope?) (some s.selections.nextId) 0 below selections
    exact ⟨done, wide₁.trans wide'⟩
  | .spread p name directives => by
    let row : SelectionRow := ⟨name, none, .fragment, none⟩
    have placed : (s.placeSelection document parent? index p row).1.Traced :=
      h.placeSelection document parent? index p (fun hk => nomatch hk) fun hk => nomatch hk
    rw [loadSelection]
    have same := loadDirectives_sameNames .selection document s.selections.nextId
      (s.placeSelection document parent? index p row).1 directives
    exact ⟨placed.directives .selection document s.selections.nextId directives,
      (placeSelection_widens ..).trans same.widens⟩

theorem loadSelections_traced {document : Int} {s : Store} (h : s.Traced) (scope? : Option String)
    (parent? : Option Int) (index : Int) (hb : scope? = none → s.Below parent?) :
    (xs : List Selection) → (loadSelections document scope? parent? index s xs).Traced ∧
      Widens s (loadSelections document scope? parent? index s xs)
  | [] => by
    rw [loadSelections]
    exact ⟨h, .refl s⟩
  | x :: rest => by
    rw [loadSelections]
    obtain ⟨done, wide⟩ := loadSelection_traced h scope? parent? index hb x
    obtain ⟨done', wide'⟩ := @loadSelections_traced document _ done scope? parent?
      (index + 1) (fun hnone => wide.below (hb hnone)) rest
    exact ⟨done', wide.trans wide'⟩

end

theorem declare_traced (h : s.Traced) (source : Source) (document : Int) (p : Position)
    (name label : String) (type : TypeRef) (default? : Option Value) :
    (s.declare source document p name label type default?).1.Traced := by
  cases default? with
  | none => exact h.congr rfl rfl rfl
  | some v =>
    have same := addValue_sameNames s (some document) p (some type) v
    exact (h.congr same.selections same.placements same.schema).congr rfl rfl rfl

theorem loadEach_clean {α : Type} {f : Store → α → Store × Diagnostics} {P : Store → Prop}
    (hstep : ∀ t a, P t → (f t a).2 = [] → P (f t a).1) (as : List α) {s : Store} (h : P s)
    (clean : (loadEach f s as).2 = []) : P (loadEach f s as).1 := by
  induction as generalizing s with
  | nil => exact h
  | cons a as ih =>
    obtain ⟨hfirst, hrest⟩ := List.append_eq_nil_iff.mp clean
    exact ih (hstep s a h hfirst) hrest

theorem loadOperation_traced (h : s.Traced) (source : Source) (sourceId : Int) (o : Operation)
    (clean : (s.loadOperation source sourceId o).2 = []) :
    (s.loadOperation source sourceId o).1.Traced := by
  obtain ⟨hroot, hmore⟩ := List.append_eq_nil_iff.mp clean
  have some_root : s.schema.rootType? o.kind ≠ none := by
    intro hnone
    rw [hnone] at hroot
    cases hroot
  let row : DocumentRow :=
    ⟨o.name?.getD "", sourceId, o.kind, s.schema.rootType? o.kind, o.position⟩
  have added : (s.addDocument row).1.Traced := h.congr rfl rfl rfl
  have declared := loadEach_clean (P := Traced) (f := loadVariable source s.documents.nextId)
    (fun t v ht _ => declare_traced ht ..) o.declarations added hmore
  exact (loadSelections_traced (declared.directives ..) _ none 0
    (fun hnone => absurd hnone some_root) o.selections).1

theorem loadFragment_traced (h : s.Traced) (source : Source) (sourceId : Int) (f : Fragment)
    (clean : (s.loadFragment source sourceId f).2 = []) :
    (s.loadFragment source sourceId f).1.Traced := by
  let row : DocumentRow := ⟨f.name, sourceId, .fragment, some f.condition, f.position⟩
  have added : (s.addDocument row).1.Traced := h.congr rfl rfl rfl
  have directed := added.directives .document s.documents.nextId s.documents.nextId f.directives
  have declared := loadEach_clean (P := Traced) (f := fun t (d : Directive) =>
      loadEach (loadFragmentArgument source s.documents.nextId d.position) t d.arguments)
    (fun t d ht hd => loadEach_clean (fun u a hu _ => ?_) d.arguments ht hd)
    (f.directives.filter (·.name == Framework.argumentsTag)) directed clean
  · exact (loadSelections_traced declared (some f.condition) none 0 (fun hnone => nomatch hnone)
      f.selections).1
  · rw [loadFragmentArgument]
    split
    · exact hu
    · exact declare_traced hu ..

theorem loadSource_traced (h : s.Traced) (entry : Int × Source)
    (clean : (s.loadSource entry).2 = []) : (s.loadSource entry).1.Traced := by
  revert clean
  rw [loadSource]
  split
  · exact fun _ => h
  · split
    · split
      · exact loadFragment_traced h _ _ _
      · exact fun _ => h
    · refine loadEach_clean (fun t d ht hd => ?_) _ h
      cases d with
      | operation o => exact loadOperation_traced ht _ _ o hd
      | fragment f => exact loadFragment_traced ht _ _ f hd

theorem loadSources_traced (h : s.Traced) (clean : s.loadSources.2 = []) :
    s.loadSources.1.Traced :=
  loadEach_clean (P := Traced) (fun _ entry ht hd => loadSource_traced ht entry hd)
    s.sources.entries h clean

/-! ## Validation -/

theorem reportEach_eq_nil {us : List Use} {problem? : Use → Option String}
    (h : s.reportEach us problem? = .ok []) {u : Use} (hu : u ∈ us) : problem? u = none := by
  cases hp : problem? u with
  | none => rfl
  | some message =>
    have hm : (u, message) ∈ us.filterMap fun u => (problem? u).map fun message => (u, message) :=
      List.mem_filterMap.mpr ⟨u, hu, by rw [hp]; rfl⟩
    rw [eq_nil_of_mapM_eq_nil h] at hm
    cases hm

theorem contains_of_unknownFields {config : Config}
    (h : Rule.unknownFields.run config s = .ok (s', [])) {q : Placement}
    (hq : q ∈ s.placements.rows) (hd : s.documents.contains q.document) {row : SelectionRow}
    (hrow : s.selections.get? q.child = some row) (hk : row.kind = .field) {id : String}
    (hid : row.type? = some id) : s.schema.fields.contains id := by
  obtain ⟨found, hcheck, h⟩ := bind_eq_ok.mp h
  cases h
  obtain ⟨d, hd⟩ := contains_iff.mp hd
  have hu : (⟨q.child, row, q.document, d, q.parent?, q.position⟩ : Use) ∈ s.uses :=
    List.mem_filterMap.mpr ⟨q, hq, by simp only [hrow, hd]⟩
  have key := reportEach_eq_nil hcheck hu
  simp only [hk, hid] at key
  by_contra hc
  rw [if_neg hc] at key
  cases key

/-! ## Fields that resolve -/

/-- A field has a type that is in the schema. -/
def Resolves (schema : Schema) (row : SelectionRow) : Prop :=
  row.kind = .field → ∃ parent, row.type? = some (Schema.idOf parent row.name) ∧
    schema.fields.contains (Schema.idOf parent row.name) = true

/-- Every field that is placed has a type that is in the schema. -/
def Resolved (s : Store) : Prop := ∀ q ∈ s.placements.rows, ∀ row,
  s.selections.get? q.child = some row → Resolves s.schema row

/-- Nothing is selected below a component field. -/
def Bare (s : Store) : Prop := ∀ q ∈ s.placements.rows, ∀ x, q.parent? = some x →
  ∀ row, s.selections.get? x = some row → row.kind = .field → ∀ id, row.type? = some id →
    ∀ f, s.schema.fields.get? id = some f → f.type.name ≠ Framework.componentType

/-- The schema has the key fields of every list that has a name. -/
def Identified (s : Store) : Prop := ∀ l ∈ s.lists.rows, l.name.isEmpty = false →
  ∀ f ∈ s.identifyingFields l.nodeType,
    s.schema.fields.contains (Schema.idOf l.nodeType f) = true

theorem Generated.resolved {n : Nat} (h : Generated n (Resolves s.schema) s s') (hs : s.Closed)
    (resolved : s.Resolved) : s'.Resolved := by
  have old : ∀ q₀ ∈ s.placements.rows, ∀ row, s'.selections.get? q₀.child = some row →
      Resolves s.schema row := by
    intro q₀ hq₀ row hrow
    have hle := le_issued_of_contains (hs.placements q₀ hq₀).2.1
    exact resolved q₀ hq₀ row ((h.selections.get?_of_le hle).symm.trans hrow)
  intro q hq row hrow
  rw [Resolves, h.fields]
  rcases h.placements q hq with hq | ⟨_, hnew | ⟨q₀, hq₀, hc⟩⟩
  · exact old q hq row hrow
  · rcases h.selections.mem_entries (mem_of_get? hrow) with hold | ⟨_, hfield⟩
    · have hle := le_issued (get?_of_mem hold)
      omega
    · exact hfield
  · exact old q₀ hq₀ row (hc ▸ hrow)

theorem Spreads.resolved (h : Spreads s s') (resolved : s.Resolved) : s'.Resolved := by
  have hplacements : s'.placements = s.placements := by rw [h.rest]
  have hschema : s'.schema = s.schema := by rw [h.rest]
  intro q hq row hrow hk
  rw [hschema]
  rcases h.rows _ row hrow with hrow | hspread
  · exact resolved q (hplacements ▸ hq) row hrow hk
  · rw [hspread] at hk
    cases hk

theorem Draws.resolved (h : Draws s s') (hschema : s'.schema = s.schema)
    (resolved : s.Resolved) : s'.Resolved := by
  intro q' hq' row hrow hk
  obtain ⟨q, hq, _, alike⟩ := h q' hq'
  rw [hschema]
  exact resolved q hq row (alike.get?_of_field hrow hk) hk

end Store

namespace Rule

open Store

section

variable {R : Store → Store → Prop} (refl : ∀ s, R s s) (trans : ∀ s t u, R s t → R t u → R s u)
include refl trans

theorem foldlM_clean {rs : List Rule} {config : Config}
    {f : Store × Diagnostics → Rule → Except Failure (Store × Diagnostics)}
    (hf : ∀ s found r e, f (s, found) r = .ok e →
      ∃ more, r.run config s = .ok (e.1, more) ∧ e.2 = found ++ more)
    (hrs : ∀ s, ∀ r ∈ rs, r.Keeps (R s)) {s t : Store} {found : Diagnostics}
    (h : rs.foldlM f (s, found) = .ok (t, [])) :
    found = [] ∧ ∀ r ∈ rs, ∃ u v, R s u ∧ r.run config u = .ok (v, []) := by
  induction rs generalizing s found with
  | nil =>
    cases h
    exact ⟨rfl, fun r hr => absurd hr List.not_mem_nil⟩
  | cons r rs ih =>
    have hrest : ∀ s, ∀ r ∈ rs, r.Keeps (R s) := fun s r hr =>
      hrs s r (List.mem_cons_of_mem _ hr)
    rw [List.foldlM_cons] at h
    obtain ⟨⟨u, found'⟩, hstep, h⟩ := bind_eq_ok.mp h
    obtain ⟨more, hrun, rfl⟩ := hf s found r _ hstep
    obtain ⟨hnil, hlater⟩ := ih hrest h
    obtain ⟨rfl, rfl⟩ := List.append_eq_nil_iff.mp hnil
    refine ⟨rfl, List.forall_mem_cons.mpr ⟨⟨s, u, refl s, hrun⟩, fun r' hr' => ?_⟩⟩
    obtain ⟨w, v, hw, hv⟩ := hlater r' hr'
    exact ⟨w, v, trans _ _ _ (hrs s r List.mem_cons_self config s (u, []) (refl s) hrun) hw, hv⟩

/-- If nothing is found, no rule finds anything. The rules see stores that are related to the
first. -/
theorem runAll_clean {rs : List Rule} (hrs : ∀ s, ∀ r ∈ rs, r.Keeps (R s)) {config : Config}
    {s t : Store} (hr : runAll rs config s = .ok (t, [])) :
    ∀ r ∈ rs, ∃ u v, R s u ∧ r.run config u = .ok (v, []) := by
  refine (foldlM_clean refl trans (fun s found r e h => ?_) hrs hr).2
  obtain ⟨⟨u, more⟩, hrun, h⟩ := bind_eq_ok.mp h
  cases h
  exact ⟨more, hrun, rfl⟩

end

end Rule

namespace Project

open Store

variable {p : Project} {s₀ s : Store}

theorem prepare_traced (h : p.prepare = .ok s) : s.Traced := by
  have none_there : ∀ x row, s.selections.get? x ≠ some row := by
    intro x row hrow
    rw [prepare_rest h] at hrow
    cases hrow
  exact ⟨fun x row hrow => absurd hrow (none_there x row),
    fun x row hrow => absurd hrow (none_there x row)⟩

theorem analyse_resolved (prepared : p.prepare = .ok s₀) (analysed : p.analyse s₀ = .ok (s, []))
    (bare : s.Bare) : s.Resolved := by
  intro q hq row hrow hk
  obtain ⟨agrees, hfields⟩ := analyse_agrees prepared analysed
  have ready := analyse_ready (prepare_ready prepared).1 (prepare_ready prepared).2 analysed
  obtain ⟨hloaded, _, s₁, s₂, _, _, h₃⟩ := analyse_clean analysed
  have traced := loadSources_traced (prepare_traced prepared) hloaded
  -- The rule looks at the same placements, selections and fields.
  have relisting : ∀ s, ∀ r ∈ Rule.rules, r.Keeps (Relists s) := fun s r hr =>
    Rule.keeps_of_mem (fun _ _ _ => checkPaging_relists) r (List.mem_append_right _ hr)
  obtain ⟨u, v, hu, hrun⟩ := Rule.runAll_clean .refl (fun _ _ _ => .trans) relisting h₃
    Rule.unknownFields (by simp [Rule.rules])
  have same : Relists u s := hu.symm.trans (Rule.runAll_induction (relisting s₂) (.refl s₂) h₃)
  have known : ∀ q ∈ s.placements.rows, ∀ row, s.selections.get? q.child = some row →
      row.kind = .field → ∀ id, row.type? = some id → s.schema.fields.contains id := by
    intro q hq
    have hd := (ready.closed.placements q hq).2.2
    revert q
    rw [show s = _ from same]
    exact fun q hq hd row hrow hk id hid => contains_of_unknownFields hrun hq hd hrow hk hid
  have closed := (loadSources_ready (prepare_ready prepared).1).ready.closed
  have alike : ∀ q ∈ s₀.loadSources.1.placements.rows,
      Resembles (fun v => v) s₀.loadSources.1 q.child s q.child :=
    fun q hq => agrees.resembles _ (closed.placements q hq).2.1
  have hrow₀ := (alike q (agrees.placements ▸ hq)).get?_of_field hrow hk
  cases htype : row.type? with
  | some id =>
    obtain ⟨parent, rfl⟩ := traced.named _ row hrow₀ hk id htype
    exact ⟨parent, rfl, known q hq row hrow hk _ htype⟩
  | none =>
    -- The field above is in the schema now but was not when it was loaded: it is a component.
    obtain ⟨q₁, hq₁, q₂, hq₂, hparent, row₁, id, hrow₁, hk₁, htype₁, hnone⟩ :=
      traced.typed _ row hrow₀ hk htype
    have hrow₁ := (alike q₁ hq₁).get?_field hrow₁ hk₁
    have hc := known q₁ (agrees.placements ▸ hq₁) row₁ hrow₁ hk₁ id htype₁
    obtain ⟨f, hf⟩ := Option.isSome_iff_exists.mp ((Keyed.contains_eq ..).symm.trans hc)
    rcases hfields id f hf with hold | hc
    · rw [Schema.fieldType?, hold] at hnone
      cases hnone
    · exact absurd hc (bare q₂ (agrees.placements ▸ hq₂) _ hparent row₁ hrow₁ hk₁ id htype₁ f hf)

theorem rewrite_resolved (h : s.Ready NoBorrowers) (resolved : s.Resolved)
    (identified : s.Identified) : (p.rewrite s).Resolved := by
  have paged := preparePagination_paging p.config h
  change (s.preparePagination p.config).1.generateListOperations.1.spreadComponentFields.1.Resolved
  generalize (s.preparePagination p.config).1 = s₁ at *
  have resolved₁ : s₁.Resolved := by
    rw [paged.rest]
    exact resolved
  have identified₁ : s₁.Identified := by
    rw [paged.rest]
    exact identified
  have generated : Generated s₁.documents.issued (Resolves s₁.schema) s₁
      s₁.generateListOperations.1 := generateListOperations_generated
    fun l hl hname f hf _ => ⟨l.nodeType, rfl, identified₁ l hl hname f hf⟩
  have spread := spreadComponentFields_spreads (generateListOperations_generating paged.ready).ready
  exact spread.resolved (generated.resolved paged.ready.closed resolved₁)

/-- If a compilation finds nothing wrong, every field of its store has a type that is in the schema,
provided that the schema has the key fields of the lists and nothing is selected below component
fields. -/
theorem fields_resolve {cancelled : Bool} {c : Compiled} (h : p.compile cancelled = .ok c)
    (clean : c.diagnostics = []) (validated : p.After .rules s) (bare : s.Bare)
    (identified : s.Identified) : c.store.Resolved := by
  obtain ⟨s₀, s₁, prepared, analysed, hstore⟩ := compile_clean h clean
  obtain rfl := validated.unique (.of_analyse prepared analysed) nofun
  obtain ⟨G, handed⟩ := Inlining.handed (handover?_of_analyse prepared analysed rfl)
  have ready := analyse_ready (prepare_ready prepared).1 (prepare_ready prepared).2 analysed
  have resolved := rewrite_resolved (p := p) ready (analyse_resolved prepared analysed bare)
    identified
  rw [hstore, Inlining.inlineArguments_store]
  exact handed.draws.resolved handed.ran.held.advances.schema resolved

/-- `Store.Bare` and `Store.Identified` to be computed, for a store with a list that has a name. -/
def sampleIdentified (s : Store) : Bool :=
  s.placements.rows.all (fun q => q.parent?.all fun x => (s.selections.get? x).all fun row =>
    row.kind != .field || row.type?.all fun id => (s.schema.fields.get? id).all fun f =>
      f.type.name != Framework.componentType) &&
  s.lists.rows.all (fun l => (s.identifyingFields l.nodeType).all fun f =>
    s.schema.fields.contains (Schema.idOf l.nodeType f)) &&
  s.lists.rows.any fun l => !l.name.isEmpty

set_option maxRecDepth 100000 in
theorem sample_identified : (sampleSpelling.analysis?.any fun e => sampleIdentified e.2) := by
  decide +kernel

/-- The fields of the sample have types that are in the schema, those of its list operations too. -/
theorem sample_fields_resolve : ∃ c s, sample.compile false = .ok c ∧ c.diagnostics = [] ∧
    sample.After .rules s ∧ s.Bare ∧ s.Identified ∧ (∃ l ∈ s.lists.rows, l.name.isEmpty = false) ∧
    c.store.Resolved := by
  obtain ⟨s₀, s, prepared, analysed, check⟩ := sampleSpelling.exists_of_any sample_identified
  obtain ⟨c, compiled, clean, _⟩ := compile_of_analyse prepared analysed
  have validated := After.of_analyse prepared analysed
  simp only [sampleIdentified, Bool.and_eq_true, List.all_eq_true, List.any_eq_true,
    Option.all_eq_true, Bool.or_eq_true, bne_iff_ne, Bool.not_eq_true'] at check
  obtain ⟨⟨bare, identified⟩, named⟩ := check
  have bare : s.Bare := fun q hq x hx row hrow hkind id hid f hf =>
    ((bare q hq x hx row hrow).resolve_left fun hne => hne hkind) id hid f hf
  have identified : s.Identified := fun l hl _ => identified l hl
  exact ⟨c, s, compiled, clean, validated, bare, identified, named,
    fields_resolve compiled clean validated bare identified⟩

/-! ## A list without its key -/

/-- The type of the list has no field `id`, which the list operations select. -/
def keyless : Project where
  schema := "type Query \x7b users: [User] \x7d type User \x7b name: String \x7d"
  sources := [{
    filepath := "keyless.graphql"
    content := "query Q \x7b users @list(name: \"All\") \x7b name \x7d \x7d" }]

set_option maxRecDepth 10000 in
def keylessSpelling : Spelling keyless := ⟨_, [_], rfl, rfl⟩

/-- After four tasks the inliner is done, and a field is placed whose type is not in the schema. -/
def placesUnknown (s : Store) : Bool :=
  let w := (Inlining.start s).run 4
  w.isDone && w.store.placements.rows.any fun q => (w.store.selections.get? q.child).any fun row =>
    row.kind = .field && row.type?.all fun id => !w.store.schema.fields.contains id

set_option maxRecDepth 100000 in
theorem keyless_placesUnknown :
    (keylessSpelling.analysis?.any fun e => placesUnknown (keyless.rewrite e.2)) := by
  decide +kernel

/-- The list operations of a type without the key field select it all the same. -/
theorem key_field_need_not_resolve : ∃ c, keyless.compile false = .ok c ∧ c.diagnostics = [] ∧
    ¬ c.store.Resolved := by
  obtain ⟨s₀, s, prepared, analysed, check⟩ := keylessSpelling.exists_of_any keyless_placesUnknown
  obtain ⟨c, compiled, clean, hstore⟩ := compile_of_analyse prepared analysed
  obtain ⟨G, handed⟩ := Inlining.handed (handover?_of_analyse prepared analysed rfl)
  refine ⟨c, compiled, clean, fun resolved => ?_⟩
  simp only [placesUnknown, Bool.and_eq_true, List.any_eq_true, Option.any_eq_true,
    Option.all_eq_true] at check
  obtain ⟨done, q, hq, row, hrow, hkind, unknown⟩ := check
  rw [hstore, transform, Inlining.inlineArguments_store, handed.finished_eq done] at resolved
  obtain ⟨parent, htype, known⟩ := resolved q hq row hrow (of_decide_eq_true hkind)
  have absent := unknown _ htype
  rw [known] at absent
  cases absent

end Project

end GraphDoc
