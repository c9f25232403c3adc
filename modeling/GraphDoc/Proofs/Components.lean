import GraphDoc.Proofs.Rewritten

/-!
# Component fields become spreads

Discovery enters a field for every declaration, under the number of the fragment that declares it.
If no fragment declares two of them, all are still there when selections become spreads, so that
each selection of such a field is found and its arguments go to a directive on the spread.
-/

set_option autoImplicit false

namespace GraphDoc

open Grammar Table

/-! ## Numbers of fields -/

theorem Grammar.IsName.dot_not_mem {s : String} (h : IsName s) : '.' ∉ s.toList := by
  obtain ⟨c, cs, hs, hc, hcs⟩ := h
  rw [hs, List.mem_cons, not_or]
  refine ⟨?_, fun hm => ?_⟩
  · rintro rfl
    cases hc
  · cases hcs '.' hm

theorem append_dot_inj {as bs as' bs' : List Char} (h : '.' ∉ as) (h' : '.' ∉ as')
    (heq : as ++ '.' :: bs = as' ++ '.' :: bs') : as = as' ∧ bs = bs' := by
  induction as generalizing as' with
  | nil =>
    cases as' with
    | nil => exact ⟨rfl, List.cons.inj heq |>.2⟩
    | cons c cs => exact absurd (List.cons.inj heq).1 fun hc => h' (hc ▸ List.mem_cons_self)
  | cons c cs ih =>
    cases as' with
    | nil => exact absurd (List.cons.inj heq).1 fun hc => h (hc ▸ List.mem_cons_self)
    | cons c' cs' =>
      obtain ⟨rfl, rest⟩ := List.cons.inj heq
      obtain ⟨rfl, rfl⟩ := ih (fun hm => h (List.mem_cons_of_mem _ hm))
        (fun hm => h' (List.mem_cons_of_mem _ hm)) rest
      exact ⟨rfl, rfl⟩

theorem Schema.idOf_inj {type type' field field' : String} (h : IsName type) (h' : IsName type')
    (heq : Schema.idOf type field = Schema.idOf type' field') : type = type' ∧ field = field' := by
  have chars := congrArg String.toList heq
  simp only [Schema.idOf, String.toList_append, List.append_assoc] at chars
  obtain ⟨ht, hf⟩ := append_dot_inj h.dot_not_mem h'.dot_not_mem chars
  exact ⟨String.toList_inj.mp ht, String.toList_inj.mp hf⟩

theorem isName_condition {source : Source} {f : Fragment}
    (h : .fragment f ∈ source.definitions) : IsName f.condition := by
  rw [Source.definitions] at h
  split at h
  · cases h
  · next ds hp =>
    have proper := proper_of_parseDocument hp
    split at h
    · split at h
      · next f' hf =>
        cases List.mem_singleton.mp h
        obtain ⟨o, ho, hf⟩ := bind_eq_ok.mp hf
        have hm : .operation o ∈ ds := by
          rw [InlineField.body.eq_def] at ho
          split at ho
          · next o' =>
            split at ho
            · cases ho
              exact List.mem_singleton_self _
            · cases ho
          · cases ho
        split at hf
        · next position condition? directives selections hsel =>
          have inner := (proper _ hm).body.2 _ (hsel ▸ List.mem_singleton_self _)
          cases inner with
          | inline hc _ _ _ _ =>
            split at hf
            · next condition =>
              split at hf
              · obtain ⟨field?, _, hf⟩ := bind_eq_ok.mp hf
                split at hf
                · obtain ⟨_, _, hf⟩ := bind_eq_ok.mp hf
                  cases hf
                  exact hc condition rfl
                · cases hf
              · cases hf
            · cases hf
        · cases hf
        · cases hf
        · cases hf
      · cases h
    · exact (proper _ h).condition

/-- What is entered for a declaration. -/
def ComponentField.Declaration.row (d : ComponentField.Declaration) : ComponentField :=
  ⟨d.prop, d.field, d.condition, d.inline⟩

namespace Store

open ComponentField

variable {s s' : Store}

/-! ## Discovery -/

theorem componentFields_registerComponent (s : Store) (d : Declaration) :
    (s.registerComponent d).componentFields = s.componentFields.put d.document d.row := by
  rw [registerComponent]
  split <;> rfl

theorem fields_registerComponent (s : Store) (d : Declaration) :
    (s.registerComponent d).schema.fields = s.schema.fields.add d.fieldId
      ⟨d.condition, d.field, ⟨Framework.componentType, ""⟩, none, none, true⟩ := by
  rw [registerComponent]
  split <;> rfl

theorem foldl_registerGroup_clean (groups : List (List Declaration))
    {outcome : Store × Diagnostics × List String}
    (h : (groups.foldl registerGroup outcome).2.1 = []) : outcome.2.1 = [] ∧
      (groups.foldl registerGroup outcome).1 =
        groups.flatten.foldl registerComponent outcome.1 ∧
      ∀ d ∈ groups.flatten, d.fieldId ∈ outcome.2.2 ∨
        outcome.1.schema.fields.get? d.fieldId = none := by
  induction groups generalizing outcome with
  | nil => exact ⟨h, rfl, fun _ hd => absurd hd List.not_mem_nil⟩
  | cons g groups ih =>
    obtain ⟨clean, rest, free⟩ := ih h
    obtain ⟨t, found, fields⟩ := outcome
    rw [List.foldl_cons, rest, List.flatten_cons, List.foldl_append]
    cases g with
    | nil => exact ⟨clean, rfl, free⟩
    | cons d others =>
      simp only [registerGroup] at clean free ⊢
      split at clean
      · exact absurd (List.append_eq_nil_iff.mp clean).2 (List.cons_ne_nil _ _)
      · next hfree =>
        obtain ⟨hfound, hsingle⟩ := List.append_eq_nil_iff.mp clean
        cases others with
        | cons e others => cases hsingle
        | nil =>
          rw [if_neg hfree] at free ⊢
          have first : d.fieldId ∈ fields ∨ t.schema.fields.get? d.fieldId = none := by
            simpa [Schema.fieldType?, imp_iff_not_or] using hfree
          refine ⟨hfound, rfl, fun e he => ?_⟩
          rcases List.mem_append.mp he with he | he
          · cases List.mem_singleton.mp he
            exact first
          · rcases free e he with hmem | hnone
            · rcases List.mem_append.mp hmem with hmem | hmem
              · exact .inl hmem
              · exact List.mem_singleton.mp hmem ▸ first
            · rw [fields_registerComponent, Keyed.get?_add] at hnone
              split at hnone
              · cases hnone
              · exact .inr hnone

theorem discoverComponentFields_clean (h : s.discoverComponentFields.2 = []) :
    ∃ ds : List Declaration, (∀ d, d ∈ ds ↔ d ∈ s.componentDeclarations) ∧
      s.discoverComponentFields.1 = ds.foldl registerComponent s ∧
      ∀ d ∈ ds, s.schema.fields.get? d.fieldId = none := by
  obtain ⟨problems, rest, free⟩ := foldl_registerGroup_clean _ h
  refine ⟨_, fun d => ?_, rest, fun d hd => (free d hd).resolve_left List.not_mem_nil⟩
  have sound : s.componentDeclarations.filter (fun d => (d.problem? s.schema).isNone) =
      s.componentDeclarations := by
    refine List.filter_eq_self.mpr fun d hd => ?_
    have := List.filterMap_eq_nil_iff.mp problems d hd
    rw [Option.map_eq_none_iff] at this
    rw [this]
    rfl
  rw [sound, componentGroups, List.mem_flatten]
  constructor
  · rintro ⟨g, hg, hd⟩
    obtain ⟨key, _, rfl⟩ := List.mem_map.mp hg
    exact (List.mem_filter.mp hd).1
  · intro hd
    exact ⟨_, List.mem_map_of_mem (mem_distinct_iff.mpr (List.mem_map_of_mem hd)),
      List.mem_filter.mpr ⟨hd, decide_eq_true rfl⟩⟩

section

variable {ds : List Declaration}

theorem get?_componentFields_foldl {key : Int} {row : ComponentField}
    (same : ∀ d ∈ ds, d.document = key → d.row = row)
    (h : (∃ d ∈ ds, d.document = key) ∨ s.componentFields.get? key = some row) :
    (ds.foldl registerComponent s).componentFields.get? key = some row := by
  induction ds generalizing s with
  | nil => exact h.resolve_left fun ⟨_, hd, _⟩ => absurd hd List.not_mem_nil
  | cons d ds ih =>
    refine ih (fun e he => same e (List.mem_cons_of_mem d he)) ?_
    rw [componentFields_registerComponent, Keyed.get?_put]
    by_cases hd : key = d.document
    · exact .inr (by rw [if_pos hd, same d List.mem_cons_self hd.symm])
    · rw [if_neg hd]
      refine h.imp_left fun ⟨e, he, hkey⟩ => ⟨e, ?_, hkey⟩
      exact (List.mem_cons.mp he).resolve_left fun heq => hd (heq ▸ hkey.symm)

theorem mem_componentFields_foldl {e : Int × ComponentField}
    (h : e ∈ (ds.foldl registerComponent s).componentFields.rows) :
    e ∈ s.componentFields.rows ∨ ∃ d ∈ ds, e = (d.document, d.row) := by
  induction ds generalizing s with
  | nil => exact .inl h
  | cons d ds ih =>
    rcases ih h with h | ⟨d', hd', rfl⟩
    · rw [componentFields_registerComponent] at h
      rcases Keyed.mem_rows_put h with ⟨h, _⟩ | rfl
      · exact .inl h
      · exact .inr ⟨d, List.mem_cons_self, rfl⟩
    · exact .inr ⟨d', List.mem_cons_of_mem d hd', rfl⟩

theorem arguments_foldl (s : Store) (ds : List Declaration) :
    (ds.foldl registerComponent s).schema.arguments = s.schema.arguments := by
  induction ds generalizing s with
  | nil => rfl
  | cons d ds ih =>
    rw [List.foldl_cons, ih, registerComponent]
    split <;> rfl

theorem get?_fields_foldl {id : String} {f : FieldRow}
    (h : (ds.foldl registerComponent s).schema.fields.get? id = some f) :
    s.schema.fields.get? id = some f ∨ ∃ d ∈ ds, d.fieldId = id := by
  induction ds generalizing s with
  | nil => exact .inl h
  | cons d ds ih =>
    rcases ih h with h | ⟨d', hd', hid⟩
    · rw [fields_registerComponent, Keyed.get?_add] at h
      split at h
      · next hid => exact .inr ⟨d, List.mem_cons_self, hid.symm⟩
      · exact .inl h
    · exact .inr ⟨d', List.mem_cons_of_mem d hd', hid⟩

end

/-! ## Runtime scalars -/

theorem retypeScalars_values (s : Store) (scalars : NameMap String) :
    Table.Grows (fun _ => True) s.values (s.retypeScalars scalars).1.values := by
  refine List.foldlRecOn (motive := fun outcome : Store × Nat =>
    Table.Grows (fun _ => True) s.values outcome.1.values) scalars _ .refl
    fun outcome ht scalar _ => ?_
  exact List.foldlRecOn (motive := fun t : Store => Table.Grows (fun _ => True) s.values t.values)
    _ _ ht fun t ht entry _ => .push ht trivial

theorem componentDeclarations_retypeScalars (hs : s.Closed) (scalars : NameMap String) :
    (s.retypeScalars scalars).1.componentDeclarations = s.componentDeclarations := by
  have retypes := retypeScalars_retypes s scalars
  have values := retypeScalars_values s scalars
  generalize (s.retypeScalars scalars).1 = t at *
  have directives : t.directives .document = s.directives .document := by rw [retypes]; rfl
  have texts : ∀ use name, t.textArgument? .document use name =
      s.textArgument? .document use name := by
    intro use name
    rw [textArgument?, textArgument?, directives]
    refine congrArg List.getLast? (List.filterMap_congr fun a ha => ?_)
    have hm := mem_rows_of_get? (get?_of_mem (List.mem_filter.mp ha).1)
    obtain ⟨row, hrow⟩ := contains_iff.mp ((hs.directives .document).arguments _ hm).2
    rw [hrow, values.get?_of_get? hrow]
  have documents : t.documents = s.documents := by rw [retypes]
  have sources : t.sources = s.sources := by rw [retypes]
  simp only [componentDeclarations, documents, sources, directives, texts]

end Store

namespace Project

open Store

variable {p : Project} {s₀ s : Store}

/-- What an analysis that finds nothing wrong knows of component fields, if each fragment declares
one at most. -/
structure Registered (l s : Store) : Prop where
  entered : ∀ d ∈ l.componentDeclarations, s.componentFields.get? d.document = some d.row
  declared : ∀ e ∈ s.componentFields.rows, ∃ d ∈ l.componentDeclarations, e = (d.document, d.row)
  fields : ∀ id f, s.schema.fields.get? id = some f → l.schema.fields.get? id = some f ∨
    ∃ d ∈ l.componentDeclarations, d.fieldId = id
  new : ∀ d ∈ l.componentDeclarations, l.schema.fields.get? d.fieldId = none
  arguments : s.schema.arguments = l.schema.arguments

/-- An analysis that finds nothing wrong enters all that is declared, and none of it for a field that
there is. -/
theorem analyse_discovers (prepared : p.prepare = .ok s₀) (analysed : p.analyse s₀ = .ok (s, [])) :
    ∃ ds : List ComponentField.Declaration,
      (∀ d, d ∈ ds ↔ d ∈ s₀.loadSources.1.componentDeclarations) ∧
      Relists (ds.foldl registerComponent
        (s₀.loadSources.1.retypeScalars p.config.runtimeScalars).1) s ∧
      ∀ d ∈ ds, s₀.loadSources.1.schema.fields.get? d.fieldId = none := by
  have closed := (loadSources_ready (prepare_ready prepared).1).ready.closed
  obtain ⟨_, found, s₁, s₂, listed, swept, ruled⟩ := analyse_clean analysed
  obtain ⟨first, second⟩ := validate_repages swept ruled
  have relists := (discoverLists_relists listed).trans (first.trans second).1
  obtain ⟨ds, declared, discovered, new⟩ := discoverComponentFields_clean found
  rw [componentDeclarations_retypeScalars closed] at declared
  rw [discovered] at relists
  refine ⟨ds, declared, relists, fun d hd => ?_⟩
  have absent := new d hd
  rwa [retypeScalars_retypes s₀.loadSources.1 p.config.runtimeScalars] at absent

/-- What is entered was declared. -/
theorem analyse_declared (prepared : p.prepare = .ok s₀) (analysed : p.analyse s₀ = .ok (s, []))
    {e : Int × ComponentField} (he : e ∈ s.componentFields.rows) :
    ∃ d ∈ s₀.loadSources.1.componentDeclarations, e = (d.document, d.row) := by
  obtain ⟨ds, declared, relists, _⟩ := analyse_discovers prepared analysed
  have retypes := retypeScalars_retypes s₀.loadSources.1 p.config.runtimeScalars
  rw [show s = _ from relists] at he
  rcases mem_componentFields_foldl he with he | ⟨d, hd, rfl⟩
  · rw [retypes] at he
    rw [componentFields_of_prepare prepared] at he
    cases he
  · exact ⟨d, (declared d).mp hd, rfl⟩

theorem analyse_registered (prepared : p.prepare = .ok s₀)
    (analysed : p.analyse s₀ = .ok (s, [])) (single : p.SingleFields) :
    Registered s₀.loadSources.1 s := by
  have untangled := prepare_untangled prepared single
  have entered := fun e => analyse_declared (e := e) prepared analysed
  obtain ⟨ds, declared, relists, new⟩ := analyse_discovers prepared analysed
  have retypes := retypeScalars_retypes s₀.loadSources.1 p.config.runtimeScalars
  generalize s₀.loadSources.1 = l at *
  generalize (l.retypeScalars p.config.runtimeScalars).1 = t at *
  have schema : t.schema = l.schema := by rw [retypes]
  have hfields : s.componentFields = (ds.foldl registerComponent t).componentFields := by
    rw [show s = _ from relists]
  refine ⟨fun d hd => ?_, entered, fun id f hf => ?_, fun d hd => new d ((declared d).mpr hd), ?_⟩
  · rw [hfields]
    refine get?_componentFields_foldl (fun e he hde => ?_) (.inl ⟨d, (declared d).mpr hd, rfl⟩)
    rw [untangled.eq_of_document_eq hd ((declared e).mp he) hde]
  · rw [relists.schema] at hf
    rw [← schema]
    exact (get?_fields_foldl hf).imp_right fun ⟨d, hd, hid⟩ => ⟨d, (declared d).mp hd, hid⟩
  · rw [relists.schema, arguments_foldl, schema]

theorem isName_of_mem_componentDeclarations (prepared : p.prepare = .ok s₀)
    {d : ComponentField.Declaration} (hd : d ∈ s₀.loadSources.1.componentDeclarations) :
    IsName d.condition := by
  obtain ⟨row, _, hrow, hk, _, _, _, _, _, hd⟩ := mem_componentDeclarations_iff hd
  obtain ⟨e, _, definition, hm, rfl, _⟩ := exists_definition (prepare_ready prepared).1.closed
    (by rw [prepare_rest prepared]; rfl) hrow
  rw [hd]
  cases definition with
  | operation o =>
    have := isOperation_of_mem_definitions hm
    rw [show o.kind = .fragment from hk] at this
    cases this
  | fragment f => exact isName_condition hm

/-- A field that a fragment declares has no pages, because it has no arguments in the schema. -/
theorem Registered.unpaged {l : Store} (h : Registered l s) (hl : l.Closed) (paged : s.Paged)
    {x : Int} {row : SelectionRow} (hrow : s.selections.get? x = some row)
    {d : ComponentField.Declaration} (hd : d ∈ l.componentDeclarations)
    (htype : row.type? = some d.fieldId) :
    ∀ list ∈ s.lists.rows, list.paginate ≠ .unpaged → list.listField ≠ x := by
  rintro list hlist hpaged rfl
  refine (paged list hlist hpaged).2 ?_
  rw [Rule.declaredArguments, hrow, Option.bind_some, htype, h.arguments]
  refine List.filterMap_eq_nil_iff.mpr fun a ha => ?_
  refine if_neg fun hfield => ?_
  have hc : l.schema.fields.contains a.2.field := by
    have hc := hl.schema
    simp only [Schema.closed, Bool.and_eq_true, List.all_eq_true] at hc
    exact (hc.1.1.1.1.2 a ha).1
  rw [beq_iff_eq.mp hfield, Keyed.contains_eq, h.new d hd] at hc
  cases hc

end Project

/-! ## Clones -/

/-- `name` is `base`, or the name of a clone that a spread of it was led to. -/
inductive CloneOf (base : String) : String → Prop where
  | self : CloneOf base base
  | clone {name : String} (h : CloneOf base name) (arguments : NameMap String) :
      CloneOf base (CloneName.cloneName name arguments)

namespace Inlining

open Store

variable {s s₀ : Store} {G : Int → Prop} {t : Task} {p p' : Progress} {spread : Int × String}
  {x : Int} {base : String}

/-- A spread without arguments of its own, as it stands in `s₀` but for its name. -/
structure Led (s₀ : Store) (x : Int) (base : String) (s : Store) : Prop where
  row : ∃ name, CloneOf base name ∧ s.selections.get? x = some ⟨name, none, .fragment, none⟩
  arguments : s.arguments x = []
  nodes : s.nodes .selection x = s₀.nodes .selection x
  childless : (∀ q ∈ s₀.placements.rows, q.parent? ≠ some x) →
    ∀ q ∈ s.placements.rows, q.parent? ≠ some x

theorem Led.contains (h : Led s₀ x base s) : s.selections.contains x := by
  obtain ⟨_, _, hrow⟩ := h.row
  exact contains_of_get? hrow

theorem Led.substituted {d : Int} {σ : String → Option Value} {u : Store}
    (h : Led s₀ x base s) (hs : s.Sound G) (hu : Substituted G s d σ u) : Led s₀ x base u where
  row := by
    rw [hu.rest]
    exact h.row
  arguments := by
    by_cases hx : ∃ q ∈ s.placements.rows, q.document = d ∧ q.child = x
    · obtain ⟨q, hq, hd, rfl⟩ := hx
      rw [hu.inner q hq hd, h.arguments, List.map_nil]
    · rw [hu.outer x fun q hq hd hc => hx ⟨q, hq, hd, hc⟩, h.arguments]
  nodes := (hu.nodes hs .selection x).trans h.nodes
  childless := by
    rw [hu.rest]
    exact h.childless

theorem Led.renameSelection (h : Led s₀ x base s) (hx : IsSpread s spread)
    (arguments : NameMap String) : Led s₀ x base
      (renameSelection s spread.1 (CloneName.cloneName spread.2 arguments)) := by
  refine ⟨?_, ?_, ?_, h.childless⟩
  · obtain ⟨name, hname, hrow⟩ := h.row
    rw [get?_renameSelection]
    split
    · next he =>
      obtain ⟨row, hrow', _, hspread⟩ := hx
      rw [← he, hrow] at hrow'
      cases hrow'
      rw [hrow]
      exact ⟨_, hspread ▸ hname.clone arguments, rfl⟩
    · exact ⟨name, hname, hrow⟩
  · rw [← h.arguments]
    apply arguments_of_tables <;> rfl
  · rw [← h.nodes]
    apply nodes_of_tables <;> rfl

theorem Led.copying {s' : Store} (h : Led s₀ x base s) (hs : s.Sound G) (hs' : s'.Sound G)
    (hc : Copying s s') (hp : (∀ q ∈ s.placements.rows, q.parent? ≠ some x) →
      ∀ q ∈ s'.placements.rows, q.parent? ≠ some x) : Led s₀ x base s' := by
  have same := hc.resembles hs hs' h.contains
  refine ⟨?_, ?_, same.nodes.trans h.nodes, fun none => hp (h.childless none)⟩
  · obtain ⟨name, hname, hrow⟩ := h.row
    exact ⟨name, hname, hc.selections.get?_of_get? hrow⟩
  · rw [same.arguments, h.arguments, List.map_nil]

theorem Led.visit (h : Led s₀ x base p.store) {s₁ : Store}
    (held : Held G s₁ p.clones p.null? p.store) (hx : IsSpread p.store spread)
    (hv : Visit G t p spread p') : Led s₀ x base p'.store := by
  have named : ∀ {target : Int} {row : DocumentRow},
      p.store.findDocument spread.2 .fragment = some (target, row) → row.name = spread.2 :=
    fun found => (findDocument_eq_some found).2.1
  cases hv with
  | settled => exact h
  | led found _ hname =>
    rw [hname, named found]
    exact h.renameSelection hx _
  | @made target row name found _ hname _ s₁ s₂ _ _ _ cloned bound =>
    have hs := held.sound.renameSelection spread.1 name
    have renamed : Led s₀ x base (Inlining.renameSelection p.store spread.1 name) := by
      rw [hname, named found]
      exact h.renameSelection hx _
    have copied := renamed.copying hs cloned.sound cloned.copying fun none q hq hparent => by
      rcases cloned.parents q hq x hparent with hlt | ⟨q₀, hq₀, hparent⟩
      · have := le_issued_of_contains renamed.contains
        omega
      · exact none q₀ hq₀ hparent
    refine copied.copying cloned.sound bound.sound bound.copying fun none => ?_
    rw [bound.same]
    exact none

theorem Handed.led (h : Handed G s₀) (hx : Led s₀ x base s₀) :
    Led s₀ x base (finished s₀).store :=
  h.run_keeps (P := fun s _ => Led s₀ x base s) hx (fun _ _ _ _ hu hs hc => hc.substituted hs hu)
    (fun _ _ _ _ held hspread hv hc => hc.visit held hspread hv) (fuelFor s₀)

end Inlining

namespace Project

open Store

variable {p : Project} {s₀ s l : Store} {x : Int} {row : SelectionRow}
  {d : ComponentField.Declaration}

/-! ## Spreads -/

theorem mem_componentSelections_iff {e : Int × ComponentField} :
    e ∈ s.componentSelections ↔ ∃ row document, s.selections.get? e.1 = some row ∧
      (document, e.2) ∈ s.componentFields.rows ∧ row.kind = .field ∧
      row.type? = some (Schema.idOf e.2.type e.2.field) := by
  rw [componentSelections, List.mem_flatMap]
  simp only [List.mem_filterMap, Option.ite_none_right_eq_some, Bool.and_eq_true,
    decide_eq_true_eq]
  constructor
  · rintro ⟨⟨id, row⟩, hrow, ⟨document, c⟩, hc, ⟨hk, htype⟩, heq⟩
    cases heq
    exact ⟨row, document, get?_of_mem hrow, hc, hk, htype⟩
  · rintro ⟨row, document, hrow, hc, hk, htype⟩
    exact ⟨(e.1, row), mem_of_get? hrow, (document, e.2), hc, ⟨hk, htype⟩, rfl⟩

/-- A selection of no component field stays as it is. -/
theorem sameOn_rewrite (ready : s.Ready NoBorrowers)
    (other : ∀ e ∈ (p.generated s).componentSelections, e.1 ≠ x) :
    SameOn (p.generated s) (p.rewrite s) x := by
  have ready' : (p.generated s).Ready (Beyond s.documents.issued) := generated_ready ready
  rw [rewrite_eq]
  have named : ∀ e ∈ (p.generated s).componentSelections, e.1 = x →
      Framework.componentFragment e.2.type e.2.field = "" := fun e he hex =>
    absurd hex (other e he)
  exact (foldl_spreadComponent_on _ ready' (fun e he => mem_componentSelections he) named).1 other

section

variable (h : Registered l s) (ready : s.Ready NoBorrowers)
  (names : ∀ d ∈ l.componentDeclarations, IsName d.condition)
include h ready names

theorem Registered.spreadOn_generated (hrow : (p.generated s).selections.get? x = some row)
    (hk : row.kind = .field) (hd : d ∈ l.componentDeclarations)
    (htype : row.type? = some d.fieldId) : SpreadOn (p.generated s) (p.rewrite s) x
      (Framework.componentFragment d.condition d.field) := by
  have ready' : (p.generated s).Ready (Beyond s.documents.issued) := generated_ready ready
  have hfields : (p.generated s).componentFields = s.componentFields :=
    (generated_grows ready).2.2.2
  rw [rewrite_eq]
  generalize p.generated s = g at *
  refine (foldl_spreadComponent_on (x := x) g.componentSelections ready'
    (fun e he => mem_componentSelections he) ?_).2 ?_
  · intro e he hex
    obtain ⟨r, document, hr, hm, _, htype'⟩ := mem_componentSelections_iff.mp he
    rw [hex, hrow] at hr
    cases hr
    obtain ⟨d', hd', heq⟩ := h.declared _ (hfields ▸ hm)
    obtain ⟨_, hc⟩ := Prod.mk.inj heq
    rw [htype, hc] at htype'
    obtain ⟨htype, hfield⟩ := Schema.idOf_inj (names d hd) (names d' hd') (Option.some.inj htype')
    rw [hc, htype, hfield]
    rfl
  · refine ⟨(x, d.row), mem_componentSelections_iff.mpr ⟨row, d.document, hrow, ?_, hk, htype⟩, rfl⟩
    rw [hfields]
    exact Keyed.mem_rows_of_get? (h.entered d hd)

theorem Registered.spreadOn (paged : s.Paged) (hl : l.Closed)
    (hrow : s.selections.get? x = some row) (hk : row.kind = .field)
    (hd : d ∈ l.componentDeclarations) (htype : row.type? = some d.fieldId) :
    SpreadOn s (p.rewrite s) x (Framework.componentFragment d.condition d.field) := by
  obtain ⟨row', nodes, arguments⟩ := generateListOperations_on ready p.config
    (contains_of_get? hrow)
  have spread := h.spreadOn_generated ready names (row'.trans hrow) hk hd htype
  refine ⟨spread.row, spread.arguments, spread.nodes.trans ?_⟩
  rw [generated, nodes, arguments (h.unpaged hl paged hrow hd htype)]

end

/-- If a compilation finds nothing wrong and no fragment carries two component field directives,
every selection of a component field ends as a spread of the field's fragment or of a clone of it.
It has no alias and no arguments, and there is nothing below it if there was nothing before. The
arguments that it had are those of one more directive on it. The fields that are left in documents
are fields of the schema as it was loaded, and no component field is among those. -/
theorem component_fields_spread {cancelled : Bool} {c : Compiled}
    (h : p.compile cancelled = .ok c) (clean : c.diagnostics = []) (single : p.SingleFields)
    (loaded : p.After .loading l) :
    (∀ x row, l.selections.get? x = some row → row.kind = .field →
      ∀ d ∈ l.componentDeclarations, row.type? = some d.fieldId →
      ∃ name fragment arguments nodes,
        c.store.selections.get? x = some ⟨name, none, .fragment, none⟩ ∧
        CloneOf (Framework.componentFragment d.condition d.field) name ∧
        c.store.documents.get? d.document = some fragment ∧ fragment.kind = .fragment ∧
        fragment.name = Framework.componentFragment d.condition d.field ∧
        l.argumentValues x = .ok arguments ∧ c.store.argumentValues x = .ok [] ∧
        l.directiveNodes .selection x = .ok nodes ∧
        c.store.directiveNodes .selection x = .ok (nodes ++
          if arguments = [] then [] else [⟨Framework.withTag, arguments⟩]) ∧
        ((∀ q ∈ l.placements.rows, q.parent? ≠ some x) →
          ∀ q ∈ c.store.placements.rows, q.parent? ≠ some x)) ∧
    ∀ q ∈ c.store.placements.rows, ∀ row, c.store.selections.get? q.child = some row →
      row.kind = .field → ∀ id f, row.type? = some id → c.store.schema.fields.get? id = some f →
      l.schema.fields.get? id = some f ∧ ∀ d ∈ l.componentDeclarations, d.fieldId ≠ id := by
  obtain ⟨s₀, s, prepared, analysed, hstore⟩ := compile_clean h clean
  obtain rfl : l = s₀.loadSources.1 := loaded.unique (.load (.prepare prepared)) nofun
  have ready := analyse_ready (prepare_ready prepared).1 (prepare_ready prepared).2 analysed
  have readyₗ := (loadSources_ready (prepare_ready prepared).1).ready
  have agrees := (analyse_agrees prepared analysed).1
  have registered := analyse_registered prepared analysed single
  have names := fun d => isName_of_mem_componentDeclarations (d := d) prepared
  have paged := analyse_paged prepared analysed
  obtain ⟨G, handed⟩ := Inlining.handed (handover?_of_analyse prepared analysed rfl)
  rw [hstore, Inlining.inlineArguments_store]
  constructor
  · intro x row hrow hk d hd htype
    have alike := agrees.resembles x (Table.contains_of_get? hrow)
    have spread := registered.spreadOn (p := p) ready names paged readyₗ.closed
      (alike.get?_field hrow hk) hk hd htype
    have arguments : s.arguments x = s₀.loadSources.1.arguments x :=
      alike.arguments.trans (List.map_id' _)
    obtain ⟨documents, placements, _⟩ := generated_grows (p := p) ready
    have rest := (spreads_rewrite (p := p) ready).rest
    -- Along the run of the inliner only the name of the spread changes.
    obtain ⟨⟨name, hname, hlast⟩, emptied, nodes, childless⟩ :=
      handed.led ⟨⟨_, .self, spread.row⟩, spread.arguments, rfl, fun h => h⟩
    obtain ⟨fragment, hfragment, hkind, hnamed⟩ := (analyse_promised prepared analysed single).2 _
      (Keyed.mem_rows_of_get? (registered.entered d hd))
    have hfragment : (p.rewrite s).documents.get? d.document = some fragment := by
      rw [rest]
      exact documents.get?_of_get? hfragment
    have sound := handed.ran.held.sound
    refine ⟨name, fragment, _, _, hlast, hname,
      handed.ran.held.advances.documents.get?_of_get? hfragment, hkind, hnamed,
      readyₗ.argumentValues_eq x, (sound.argumentValues_eq x).trans (congrArg _ emptied),
      readyₗ.directiveNodes_eq .selection x, (sound.directiveNodes_eq .selection x).trans ?_,
      fun none => childless fun q hq hparent => ?_⟩
    · rw [nodes, spread.nodes, alike.nodes, arguments]
    · rw [rest] at hq
      rcases placements.rows_or hq with hq | hq
      · exact none q (agrees.placements ▸ hq) hparent
      · obtain ⟨q₀, hq₀, hparent⟩ := hq.parent x hparent
        exact none q₀ (agrees.placements ▸ hq₀) hparent
  · intro q hq row hrow hk id f hid hf
    obtain ⟨q₀, _, values, alike⟩ := handed.draws q hq
    have hrow := alike.get?_of_field hrow hk
    have hf : s.schema.fields.get? id = some f := by
      rw [handed.ran.held.advances.schema, (spreads_rewrite (p := p) ready).rest] at hf
      rw [← (generated_grows (p := p) ready).2.2.1]
      exact hf
    have undeclared : ∀ d ∈ s₀.loadSources.1.componentDeclarations, d.fieldId ≠ id := by
      intro d hd hfield
      rcases (spreads_rewrite ready).rows _ _ hrow with hrow' | hk'
      · have spread := registered.spreadOn_generated ready names hrow' hk hd (hfield ▸ hid)
        have hkind := congrArg SelectionRow.kind (Option.some.inj (hrow.symm.trans spread.row))
        rw [hk] at hkind
        cases hkind
      · rw [hk] at hk'
        cases hk'
    refine ⟨(registered.fields id f hf).resolve_right ?_, undeclared⟩
    exact fun ⟨d, hd, hfield⟩ => undeclared d hd hfield

/-- A field with arguments is selected that some fragment declares. -/
def selectsComponent (l : Store) : Bool :=
  l.selections.entries.any fun e => e.2.kind = .field && !(l.argumentRows e.1).isEmpty &&
    l.componentDeclarations.any fun d => e.2.type? = some d.fieldId

set_option maxRecDepth 100000 in
theorem gallery_selectsComponent :
    (gallerySpelling.analysis?.any fun e => selectsComponent e.1) := by
  decide +kernel

/-- The component field of the gallery becomes a spread that passes the argument on. -/
theorem gallery_component_fields_spread : ∃ c l x row d, gallery.compile false = .ok c ∧
    c.diagnostics = [] ∧ gallery.SingleFields ∧ gallery.After .loading l ∧
    l.selections.get? x = some row ∧ row.kind = .field ∧ d ∈ l.componentDeclarations ∧
    row.type? = some d.fieldId ∧ ∃ name arguments nodes, arguments ≠ [] ∧
      c.store.selections.get? x = some ⟨name, none, .fragment, none⟩ ∧
      CloneOf (Framework.componentFragment d.condition d.field) name ∧
      c.store.directiveNodes .selection x =
        .ok (nodes ++ [⟨Framework.withTag, arguments⟩]) := by
  obtain ⟨s₀, s, prepared, analysed, check⟩ :=
    gallerySpelling.exists_of_any gallery_selectsComponent
  obtain ⟨c, compiled, clean, -⟩ := compile_of_analyse prepared analysed
  have loaded : gallery.After .loading s₀.loadSources.1 := .load (.prepare prepared)
  obtain ⟨⟨x, row⟩, hrow, check⟩ := List.any_eq_true.mp check
  simp only [Bool.and_eq_true, decide_eq_true_eq, Bool.not_eq_true', List.isEmpty_eq_false_iff,
    List.any_eq_true] at check
  obtain ⟨⟨hk, passes⟩, d, hd, htype⟩ := check
  have hrow : s₀.loadSources.1.selections.get? x = some row := Table.get?_of_mem hrow
  obtain ⟨name, _, arguments, nodes, hlast, hname, _, _, _, hpassed, _, _, hnodes, _⟩ :=
    (component_fields_spread compiled clean gallery_singleFields loaded).1 x row hrow hk d hd htype
  have some_passed : arguments ≠ [] := by
    rintro rfl
    rw [(loadSources_ready (prepare_ready prepared).1).ready.argumentValues_eq] at hpassed
    exact passes (List.map_eq_nil_iff.mp (Except.ok.inj hpassed))
  rw [if_neg some_passed] at hnodes
  exact ⟨c, _, x, row, d, compiled, clean, gallery_singleFields, loaded, hrow, hk, hd, htype, name,
    arguments, nodes, some_passed, hlast, hname, hnodes⟩

/-! ## A fragment that declares two fields -/

/-- One fragment declares two fields, and both are selected. -/
def portraits : Project where
  schema := "type Query \x7b user: User \x7d
    type User \x7b id: ID avatar(size: Int): String \x7d"
  sources := [{
    filepath := "portraits.graphql"
    content := "fragment Face on User @componentField(prop: \"user\", field: \"Avatar\")
          @componentField(prop: \"user\", field: \"Bild\") \x7b id \x7d
      query Q \x7b user \x7b Avatar Bild \x7d \x7d" }]

set_option maxRecDepth 10000 in
def portraitsSpelling : Spelling portraits := ⟨_, [_], rfl, rfl⟩

/-- After four tasks the inliner is done, and a field that a fragment declares is still selected. -/
def keepsComponent (l handed : Store) : Bool :=
  let w := (Inlining.start handed).run 4
  w.isDone && l.selections.entries.any fun e => e.2.kind = .field &&
    w.store.selections.get? e.1 = some e.2 &&
    l.componentDeclarations.any fun d => e.2.type? = some d.fieldId

set_option maxRecDepth 100000 in
theorem portraits_keepsComponent : (portraitsSpelling.analysis?.any fun e =>
    keepsComponent e.1 (portraits.rewrite e.2)) := by
  decide +kernel

/-- Only the second of the two fields becomes a spread. -/
theorem portraits_field_remains : ∃ c l x row d, portraits.compile false = .ok c ∧
    c.diagnostics = [] ∧ portraits.After .loading l ∧ l.selections.get? x = some row ∧
    row.kind = .field ∧ d ∈ l.componentDeclarations ∧ row.type? = some d.fieldId ∧
    c.store.selections.get? x = some row := by
  obtain ⟨s₀, s, prepared, analysed, check⟩ :=
    portraitsSpelling.exists_of_any portraits_keepsComponent
  obtain ⟨c, compiled, clean, hstore⟩ := compile_of_analyse prepared analysed
  obtain ⟨G, handed⟩ := Inlining.handed (handover?_of_analyse prepared analysed rfl)
  simp only [keepsComponent, Bool.and_eq_true, List.any_eq_true, decide_eq_true_eq] at check
  obtain ⟨done, ⟨x, row⟩, hrow, ⟨hk, hlast⟩, d, hd, htype⟩ := check
  refine ⟨c, _, x, row, d, compiled, clean, .load (.prepare prepared), Table.get?_of_mem hrow, hk,
    hd, htype, ?_⟩
  rw [hstore, transform, Inlining.inlineArguments_store, handed.finished_eq done]
  exact hlast

end Project

end GraphDoc
