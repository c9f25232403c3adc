import GraphDoc.Proofs.Pagination.Lists

/-!
# How selections are placed

The loader places each selection once, below a selection that it has placed before. Until list
operations are generated no stage places anything, so in every document the placements are a forest.
-/

set_option autoImplicit false

namespace GraphDoc

open Table

namespace Store

open Grammar

variable {s s' s'' : Store} {document : Int}

/-! ## The loader -/

/-- Nothing is selected or placed. -/
structure SamePlaces (s s' : Store) : Prop where
  selections : s'.selections = s.selections
  placements : s'.placements = s.placements

namespace SamePlaces

theorem refl (s : Store) : SamePlaces s s := ⟨rfl, rfl⟩

theorem trans (h : SamePlaces s s') (h' : SamePlaces s' s'') : SamePlaces s s'' :=
  ⟨h'.selections.trans h.selections, h'.placements.trans h.placements⟩

theorem of_sameNames (h : SameNames s s') : SamePlaces s s' := ⟨h.selections, h.placements⟩

end SamePlaces

theorem declare_samePlaces (s : Store) (source : Source) (document : Int) (p : Position)
    (name label : String) (type : TypeRef) (default? : Option Value) :
    SamePlaces s (s.declare source document p name label type default?).1 := by
  cases default? with
  | none => exact ⟨rfl, rfl⟩
  | some v => exact (SamePlaces.of_sameNames (addValue_sameNames ..)).trans ⟨rfl, rfl⟩

theorem loadFragmentArgument_samePlaces (source : Source) (document : Int) (p : Position)
    (s : Store) (argument : String × Literal) :
    SamePlaces s (loadFragmentArgument source document p s argument).1 := by
  rw [loadFragmentArgument]
  split
  · exact .refl s
  · exact declare_samePlaces ..

theorem loadEach_samePlaces {α : Type} {step : Store → α → Store × Diagnostics}
    (h : ∀ s a, SamePlaces s (step s a).1) (as : List α) (s : Store) :
    SamePlaces s (loadEach step s as).1 :=
  loadEach_induction (P := SamePlaces s) as (fun t a _ ht => ht.trans (h t a)) (.refl s)

/-- Selections are placed in the order in which they come. What is above one is placed before it, in
the same document. Only fields have types. -/
structure Planted (s : Store) : Prop where
  known : ∀ q ∈ s.placements.rows, q.child ≤ s.selections.issued
  ascending : s.placements.rows.Pairwise fun p q => p.child < q.child
  rooted : ∀ q ∈ s.placements.rows, ∀ x, q.parent? = some x →
    x < q.child ∧ ∃ q' ∈ s.placements.rows, q'.child = x ∧ q'.document = q.document
  typed : ∀ row ∈ s.selections.rows, row.type?.isSome = true → row.kind = .field

theorem Planted.same (h : s.Planted) (hs : SamePlaces s s') : s'.Planted := by
  obtain ⟨known, ascending, rooted, typed⟩ := h
  rw [← hs.placements] at known ascending rooted
  rw [← hs.selections] at known typed
  exact ⟨known, ascending, rooted, typed⟩

/-- Something can be placed below `parent?` in a document. -/
def Supports (s : Store) (document : Int) (parent? : Option Int) : Prop :=
  ∀ x, parent? = some x → ∃ q ∈ s.placements.rows, q.child = x ∧ q.document = document

theorem supports_none (s : Store) (document : Int) : s.Supports document none := by
  intro x hx
  cases hx

/-- More is placed, and all is planted as before. -/
structure Plants (s s' : Store) : Prop where
  planted : s'.Planted
  older : ∀ q ∈ s.placements.rows, q ∈ s'.placements.rows

theorem Plants.refl (h : s.Planted) : Plants s s := ⟨h, fun _ hq => hq⟩

theorem Plants.trans (h : Plants s s') (h' : Plants s' s'') : Plants s s'' :=
  ⟨h'.planted, fun q hq => h'.older q (h.older q hq)⟩

theorem Plants.same (h : Plants s s') (hs : SamePlaces s' s'') : Plants s s'' :=
  ⟨h.planted.same hs, fun q hq => hs.placements ▸ h.older q hq⟩

theorem Plants.supports (h : Plants s s') {parent? : Option Int}
    (hp : s.Supports document parent?) : s'.Supports document parent? := by
  intro x hx
  obtain ⟨q, hq, hchild⟩ := hp x hx
  exact ⟨q, h.older q hq, hchild⟩

theorem SamePlaces.supports (h : SamePlaces s s') {parent? : Option Int}
    (hp : s.Supports document parent?) : s'.Supports document parent? := by
  unfold Supports at hp ⊢
  rwa [h.placements]

theorem placeSelection_plants (h : s.Planted) {parent? : Option Int}
    (hp : s.Supports document parent?) (index : Int) (p : Position) (row : SelectionRow)
    (ht : row.type?.isSome → row.kind = .field) :
    Plants s (s.placeSelection document parent? index p row).1 ∧
    (s.placeSelection document parent? index p row).1.Supports document
      (some (s.placeSelection document parent? index p row).2) := by
  let new : Placement := ⟨parent?, s.selections.nextId, document, index, p⟩
  have rows : (s.placeSelection document parent? index p row).1.placements.rows =
      s.placements.rows ++ [new] := rows_push ..
  have older : ∀ q ∈ s.placements.rows, q ∈ s.placements.rows ++ [new] := fun q =>
    List.mem_append_left _
  have last : new ∈ s.placements.rows ++ [new] := List.mem_append_right _ List.mem_cons_self
  have hlt := s.selections.issued_lt_nextId
  refine ⟨⟨⟨?_, ?_, ?_, ?_⟩, fun q hq => rows ▸ older q hq⟩, ?_⟩
  · have issued : ((s.placeSelection document parent? index p row).1.selections.issued : Int) =
        s.selections.nextId := rfl
    rw [rows, issued]
    intro q hq
    rcases List.mem_append.mp hq with hq | hq
    · exact Int.le_of_lt (Int.lt_of_le_of_lt (h.known q hq) hlt)
    · obtain rfl := List.mem_singleton.mp hq
      exact Int.le_refl _
  · rw [rows]
    refine List.pairwise_append.mpr ⟨h.ascending, List.pairwise_singleton .., fun q hq q' hq' => ?_⟩
    obtain rfl := List.mem_singleton.mp hq'
    exact Int.lt_of_le_of_lt (h.known q hq) hlt
  · rw [rows]
    intro q hq x hx
    rcases List.mem_append.mp hq with hq | hq
    · obtain ⟨lt, q', hq', hchild⟩ := h.rooted q hq x hx
      exact ⟨lt, q', older q' hq', hchild⟩
    · obtain rfl := List.mem_singleton.mp hq
      obtain ⟨q', hq', rfl, hdocument⟩ := hp x hx
      exact ⟨Int.lt_of_le_of_lt (h.known q' hq') hlt, q', older q' hq', rfl, hdocument⟩
  · exact forall_rows_push.mpr ⟨h.typed, ht⟩
  · intro x hx
    rw [rows]
    exact ⟨new, last, Option.some.inj hx, rfl⟩

mutual

theorem loadSelection_plants {s : Store} (h : s.Planted) (scope? : Option String)
    {parent? : Option Int} (hp : s.Supports document parent?) (index : Int) : (x : Selection) →
    Plants s (loadSelection document scope? parent? index s x)
  | .field p label? name arguments directives selections => by
    obtain ⟨plants, supports⟩ := placeSelection_plants h hp index p
      ⟨name, label?, .field, scope?.map (Schema.idOf · name)⟩ fun _ => rfl
    rw [loadSelection]
    generalize s.placeSelection document parent? index p _ = r at plants supports ⊢
    have same := SamePlaces.of_sameNames ((foldl_loadFieldArgument_sameNames document r.2
      (scope?.map (Schema.idOf · name)) p r.1 arguments).trans
      (loadDirectives_sameNames .selection document r.2 _ directives))
    have dressed := plants.same same
    exact dressed.trans
      (loadSelections_plants dressed.planted _ (same.supports supports) 0 selections)
  | .inline p condition? directives selections => by
    obtain ⟨plants, supports⟩ := placeSelection_plants h hp index p
      ⟨(condition?.orElse fun _ => scope?).getD "", none, .inlineFragment, none⟩
      (absurd · Bool.false_ne_true)
    rw [loadSelection]
    generalize s.placeSelection document parent? index p _ = r at plants supports ⊢
    have same := SamePlaces.of_sameNames
      (loadDirectives_sameNames .selection document r.2 r.1 directives)
    have dressed := plants.same same
    exact dressed.trans
      (loadSelections_plants dressed.planted _ (same.supports supports) 0 selections)
  | .spread p name directives => by
    obtain ⟨plants, _⟩ := placeSelection_plants h hp index p ⟨name, none, .fragment, none⟩
      (absurd · Bool.false_ne_true)
    rw [loadSelection]
    exact plants.same (.of_sameNames (loadDirectives_sameNames ..))

theorem loadSelections_plants {s : Store} (h : s.Planted) (scope? : Option String)
    {parent? : Option Int} (hp : s.Supports document parent?) (index : Int) :
    (xs : List Selection) → Plants s (loadSelections document scope? parent? index s xs)
  | [] => .refl h
  | x :: rest => by
    have first := loadSelection_plants h scope? hp index x
    exact first.trans
      (loadSelections_plants first.planted scope? (first.supports hp) (index + 1) rest)

end

theorem loadFragment_planted (h : s.Planted) (source : Source) (sourceId : Int) (f : Fragment) :
    (s.loadFragment source sourceId f).1.Planted := by
  rw [loadFragment]
  have documented : SamePlaces s (s.addDocument
      ⟨f.name, sourceId, .fragment, some f.condition, f.position⟩).1 := ⟨rfl, rfl⟩
  generalize s.addDocument ⟨f.name, sourceId, .fragment, some f.condition, f.position⟩ = r at *
  have directed := documented.trans
    (.of_sameNames (loadDirectives_sameNames .document r.2 r.2 r.1 f.directives))
  have declared := directed.trans (loadEach_samePlaces (fun t (d : Directive) =>
    loadEach_samePlaces (loadFragmentArgument_samePlaces source r.2 d.position) d.arguments t)
      (f.directives.filter (·.name == Framework.argumentsTag)) _)
  exact (loadSelections_plants (h.same declared) _ (supports_none _ _) 0 f.selections).planted

theorem loadOperation_planted (h : s.Planted) (source : Source) (sourceId : Int) (o : Operation) :
    (s.loadOperation source sourceId o).1.Planted := by
  rw [loadOperation]
  let row : DocumentRow :=
    ⟨o.name?.getD "", sourceId, o.kind, s.schema.rootType? o.kind, o.position⟩
  have documented : SamePlaces s (s.addDocument row).1 := ⟨rfl, rfl⟩
  generalize s.addDocument row = r at *
  have declared := documented.trans (loadEach_samePlaces
    (fun t (v : VariableDefinition) => declare_samePlaces t source r.2 v.position v.name
      ("$" ++ v.name) (.ofExpr v.type) (v.default?.map (·.toValue))) o.declarations r.1)
  have directed := declared.trans
    (.of_sameNames (loadDirectives_sameNames .document r.2 r.2 _ o.directives))
  exact (loadSelections_plants (h.same directed) _ (supports_none _ _) 0 o.selections).planted

theorem loadSources_planted (h : s.Planted) : s.loadSources.1.Planted := by
  refine loadEach_induction _ (fun t entry _ ht => ?_) h
  rw [loadSource]
  split
  · exact ht
  · split
    · split
      · exact loadFragment_planted ht ..
      · exact ht
    · refine loadEach_induction _ (fun t d _ ht => ?_) ht
      cases d with
      | operation o => exact loadOperation_planted ht ..
      | fragment f => exact loadFragment_planted ht ..

/-! ## What a list selects -/

/-- The field of a list is placed in its document. Its node is that field or, in a connection, the
field `node` below the field `edges`. A list is embedded if its document is a fragment. -/
structure Finds (s : Store) (l : ListRow) : Prop where
  field : ∃ q ∈ s.placements.rows, q.child = l.listField ∧ q.document = l.document
  node : if l.connection = true then
      ∃ edges, s.childField l.document l.listField "edges" = some edges ∧
        s.childField l.document edges "node" = some l.node
    else l.node = l.listField
  embedded : ∃ d, s.documents.get? l.document = some d ∧ l.embedded = decide (d.kind = .fragment)

theorem Finds.same {l : ListRow} (h : s.Finds l) (hs : SamePlaces s s')
    (hd : s'.documents = s.documents) : s'.Finds l := by
  have child : ∀ document parent field,
      s'.childField document parent field = s.childField document parent field := by
    intro document parent field
    simp only [childField, placed, hs.selections, hs.placements]
  obtain ⟨field, node, embedded⟩ := h
  refine ⟨hs.placements ▸ field, ?_, hd ▸ embedded⟩
  simpa only [child] using node

theorem listShape_node {t : ListField.Tagged} {name : String} {type : TypeRef} {nodeType : String}
    {edgeType? connectionType? : Option String} {node : Int}
    (h : s.listShape t name type = .ok (nodeType, edgeType?, connectionType?, node)) :
    if (!type.isList) = true then
      ∃ edges, s.childField t.document t.selection "edges" = some edges ∧
        s.childField t.document edges "node" = some node
    else node = t.selection := by
  rw [listShape] at h
  split at h
  · next list =>
    rw [if_neg (by rw [list]; exact Bool.false_ne_true)]
    split at h
    · cases h
      rfl
    · cases h
  · next list =>
    rw [if_pos (by rw [Bool.not_eq_true] at list; rw [list]; rfl)]
    split at h
    · simp only at h
      split at h
      · next found =>
        cases h
        exact Option.bind_eq_some_iff.mp found
      · cases h
    · cases h

theorem ListOf.finds {t : ListField.Tagged} {row : SelectionRow} {d : DocumentRow}
    {field : FieldRow} {l : ListRow} (h : s.ListOf t row d field l) (ht : t ∈ s.taggedFields) :
    s.Finds l where
  field := by
    rw [h.listField, h.document]
    exact (mem_taggedFields ht).1
  node := by
    rw [h.connection, h.listField, h.document]
    exact listShape_node h.shape
  embedded := ⟨d, h.document ▸ h.written, h.embedded⟩

theorem checkPaging_finds {outcome outcome' : Store × Diagnostics} {entry : Int × ListRow}
    (h : ∀ l ∈ outcome.1.lists.rows, outcome.1.Finds l)
    (hc : Rule.checkPaging outcome entry = .ok outcome') :
    ∀ l ∈ outcome'.1.lists.rows, outcome'.1.Finds l := by
  refine checkPaging_keeps (P := fun t => ∀ l ∈ t.lists.rows, t.Finds l) h (fun p l hl => ?_) hc
  rcases mem_rows_modify hl with hl | ⟨l₀, h₀, rfl⟩
  · exact (h l hl).same ⟨rfl, rfl⟩ rfl
  · -- How a list pages does not change what it selects.
    have finds := h l₀ (mem_rows_of_get? h₀)
    exact ⟨finds.field, (finds.same ⟨rfl, rfl⟩ rfl).node, finds.embedded⟩

end Store

/-! ## The stages -/

/-- Whether lists are found and their operations still missing. -/
def Stage.discovered : Stage → Bool
  | .lists | .sweeps | .rules | .pagination => true
  | _ => false

/-- Whether the documents are those of the sources. -/
def Stage.original : Stage → Bool
  | .listOperations | .componentSpreads | .inlining => false
  | _ => true

theorem Stage.original_of_discovered {stage : Stage} (h : stage.discovered) :
    stage.original := by
  cases stage <;> first | rfl | cases h

namespace Project

open Store

variable {p : Project} {s : Store} {stage : Stage}

theorem After.ready (h : p.After stage s) (original : stage.original) :
    s.Ready NoBorrowers := by
  have keeps := h.keeps
  cases stage with
  | preparation | loading | runtimeScalars => exact keeps.1
  | listOperations | componentSpreads | inlining => cases original
  | _ => exact keeps

theorem After.planted (h : p.After stage s) (original : stage.original) : s.Planted := by
  -- After loading nothing is placed, and spreads may get other names.
  have later : ∀ {s t : Store} {stage : Stage}, s.Planted → p.After stage t →
      stage.original → Agrees s t → t.Planted := by
    intro s t stage planted after original agrees
    have same := agrees.placements
    refine ⟨fun q hq => ?_, same ▸ planted.ascending, same ▸ planted.rooted, fun row hrow => ?_⟩
    · exact le_issued_of_contains ((after.ready original).closed.placements q hq).2.1
    · obtain ⟨x, hx⟩ := mem_rows_iff.mp hrow
      obtain ⟨row₀, _, hrow₀, hrow', _⟩ := (agrees.resembles x
        ((agrees.present x).symm.trans (contains_of_get? hx))).row
      obtain rfl := Option.some.inj (hrow'.symm.trans hx)
      exact planted.typed row₀ (mem_rows_of_get? hrow₀)
  induction h with
  | prepare h =>
    rw [prepare_rest h]
    exact ⟨fun _ hq => absurd hq List.not_mem_nil, .nil, fun _ hq => absurd hq List.not_mem_nil,
      fun _ hrow => absurd hrow List.not_mem_nil⟩
  | load _ ih => exact loadSources_planted (ih rfl)
  | retype h ih =>
    exact later (ih rfl) (.retype h) rfl (retypeScalars_marking h.keeps.1 _).agrees
  | discover h ih =>
    exact later (ih rfl) (.discover h) rfl
      (discoverComponentFields_registering h.keeps.1 h.keeps.2).agrees
  | list h listed ih =>
    exact later (ih rfl) (.list h listed) rfl
      ((discoverLists_relists listed).agrees (h.ready rfl).closed)
  | @sweep s t _ h swept ih =>
    have relists : Relists s t := runAll_relists (fun _ => List.mem_append_left _) swept
    exact later (ih rfl) (.sweep h swept) rfl (relists.agrees (h.ready rfl).closed)
  | rule h ruled ih =>
    obtain rfl := rules_keep ruled
    exact ih rfl
  | paginate h ih =>
    refine (ih rfl).same ⟨?_, ?_⟩ <;> rw [(preparePagination_paging p.config h.keeps).rest]
  | _ => cases original

theorem After.lists_eq_nil (h : p.After .componentFields s) : s.lists.rows = [] := by
  cases h with
  | discover h =>
    cases h with
    | retype h =>
      cases h with
      | load h =>
        cases h with
        | prepare prepared => exact lists_of_prepare prepared

theorem After.finds (h : p.After stage s) (discovered : stage.discovered) :
    ∀ l ∈ s.lists.rows, s.Finds l := by
  induction h with
  | list h listed _ =>
    intro l hl
    obtain ⟨t, ht, _, _, _, list⟩ := (mem_discoverLists listed hl).resolve_left
      (h.lists_eq_nil ▸ List.not_mem_nil)
    refine (list.finds ht).same ⟨?_, ?_⟩ ?_ <;>
      rw [show _ = _ from discoverLists_relists listed]
  | sweep h swept ih =>
    exact Rule.runAll_induction (P := fun t => ∀ l ∈ t.lists.rows, t.Finds l)
      (fun r hr => Rule.keeps_of_mem (fun _ _ _ => checkPaging_finds) r
        (List.mem_append_left _ hr)) (ih rfl) swept
  | rule h ruled ih =>
    obtain rfl := rules_keep ruled
    exact ih rfl
  | paginate h ih =>
    have rest := (preparePagination_paging p.config h.keeps).rest
    intro l hl
    rw [rest] at hl
    refine (ih rfl l hl).same ⟨?_, ?_⟩ ?_ <;> rw [rest]
  | _ => cases discovered

end Project

end GraphDoc
