import GraphDoc.Proofs.FragmentArgument.Visiting
import GraphDoc.Proofs.Preservation

/-!
# Variables in documents

A store is self-contained if its documents use no variables but the arguments that they declare.
Loaded documents that are so stay so until they are handed to the inliner, if no list is paginated
and no variable stands on a selection that two documents share.
-/

set_option autoImplicit false

namespace GraphDoc

open Table

mutual

/-- The names of the variables in a value, at any depth. -/
def Value.varNames : Value → List String
  | .node kind raw children => if kind = .var then [raw] else Value.varNamesIn children

def Value.varNamesIn : List (Option String × Value) → List String
  | [] => []
  | (_, v) :: rest => v.varNames ++ Value.varNamesIn rest

end

namespace Store

variable {s s' : Store} {G : Int → Prop}

/-- The variables on a selection: in its arguments and in those of its directives. -/
def variablesOn (s : Store) (x : Int) : List String :=
  (s.arguments x).flatMap (·.2.varNames) ++
    (s.nodes .selection x).flatMap fun node => node.arguments.flatMap (·.2.varNames)

/-- The names of the variables that a document declares. -/
def declaredNames (s : Store) (d : Int) : List String := (s.variablesOf d).map (·.2.name)

/-- Documents use the variables that they declare, operations declare none, and no default has
one. -/
structure SelfContained (s : Store) : Prop where
  declared : ∀ q ∈ s.placements.rows, ∀ n ∈ s.variablesOn q.child,
    n ∈ s.declaredNames q.document
  operations : ∀ d row, s.documents.get? d = some row → row.kind ≠ .fragment →
    s.variablesOf d = []
  defaults : ∀ v ∈ s.declarations.rows, ∀ d, v.default? = some d → (s.read d).varNames = []

/-- No variable stands on a selection that two documents share. -/
def Unshared (s : Store) : Prop := ∀ q ∈ s.placements.rows, ∀ q' ∈ s.placements.rows,
  q.child = q'.child → q.document ≠ q'.document → s.variablesOn q.child = []

theorem mem_variablesOf {d id : Int} {v : VariableRow} :
    (id, v) ∈ s.variablesOf d ↔ s.declarations.get? id = some v ∧ v.document = d := by
  rw [variablesOf, List.mem_filter, decide_eq_true_eq, get?_eq_some_iff]

theorem mem_declaredNames {d : Int} {n : String} : n ∈ s.declaredNames d ↔
    ∃ id v, s.declarations.get? id = some v ∧ v.document = d ∧ v.name = n := by
  simp only [declaredNames, List.mem_map, Prod.exists, mem_variablesOf, and_assoc]

theorem mem_variablesOn {x : Int} {n : String} :
    n ∈ s.variablesOn x ↔ ∃ v, s.Mentions x v ∧ n ∈ (s.read v).varNames := by
  simp only [variablesOn, List.mem_append, List.mem_flatMap]
  constructor
  · rintro (⟨_, ha, hn⟩ | ⟨_, hnode, _, ha, hn⟩)
    · obtain ⟨⟨id, a⟩, hrow, rfl⟩ := List.mem_map.mp ha
      obtain ⟨hm, hx⟩ := List.mem_filter.mp hrow
      exact ⟨a.value, .inl ⟨a, mem_rows_of_get? (get?_of_mem hm),
        of_decide_eq_true hx, rfl⟩, hn⟩
    · obtain ⟨⟨use, u⟩, hu, rfl⟩ := List.mem_map.mp hnode
      obtain ⟨hu, hx⟩ := List.mem_filter.mp hu
      obtain ⟨⟨id, a⟩, hrow, rfl⟩ := List.mem_map.mp ha
      obtain ⟨hm, hown⟩ := List.mem_filter.mp hrow
      have hown : a.owner = use := of_decide_eq_true hown
      exact ⟨a.value, .inr ⟨a, mem_rows_of_get? (get?_of_mem hm), u,
        hown ▸ get?_of_mem hu, of_decide_eq_true hx, rfl⟩, hn⟩
  · rintro ⟨v, ⟨a, ha, hx, rfl⟩ | ⟨a, ha, u, hu, hx, rfl⟩, hn⟩
    · obtain ⟨id, hid⟩ := mem_rows_iff.mp ha
      exact .inl ⟨_, List.mem_map_of_mem (List.mem_filter.mpr
        ⟨mem_of_get? hid, decide_eq_true hx⟩), hn⟩
    · obtain ⟨id, hid⟩ := mem_rows_iff.mp ha
      refine .inr ⟨_, List.mem_map_of_mem (List.mem_filter.mpr
        ⟨mem_of_get? hu, decide_eq_true hx⟩), _, List.mem_map_of_mem (List.mem_filter.mpr
        ⟨mem_of_get? hid, decide_eq_true rfl⟩), hn⟩

/-! ## From loading to validation -/

theorem Resembles.variablesOn {x x' : Int} (h : Resembles (fun v => v) s x s' x') :
    s'.variablesOn x' = s.variablesOn x := by
  rw [Store.variablesOn, Store.variablesOn, h.arguments, h.nodes, List.map_id']

/-- Each declaration of `s'` is one of `s`. -/
theorem Agrees.exists_declaration (h : Agrees s s') {id : Int} {v' : VariableRow}
    (hv : s'.declarations.get? id = some v') : ∃ v, s.declarations.get? id = some v ∧
      v'.document = v.document ∧ v'.name = v.name ∧ v'.type.modifiers = v.type.modifiers ∧
      v'.default?.map s'.read = v.default?.map s.read := by
  have key := h.declarations id
  rw [hv] at key
  obtain ⟨v, hv, he⟩ := Option.map_eq_some_iff.mp key.symm
  simp only [declaration, Prod.mk.injEq] at he
  exact ⟨v, hv, he.1.symm, he.2.1.symm, he.2.2.1.symm, he.2.2.2.symm⟩

theorem Agrees.declaredNames (h : Agrees s s') {d : Int} {n : String}
    (hn : n ∈ s.declaredNames d) : n ∈ s'.declaredNames d := by
  obtain ⟨id, v, hv, rfl, rfl⟩ := mem_declaredNames.mp hn
  have key := h.declarations id
  rw [hv] at key
  obtain ⟨v', hv', he⟩ := Option.map_eq_some_iff.mp key
  simp only [declaration, Prod.mk.injEq] at he
  exact mem_declaredNames.mpr ⟨id, v', hv', he.1, he.2.1⟩

theorem Agrees.selfContained (h : Agrees s s') (hs : s.Closed) (hc : s.SelfContained) :
    s'.SelfContained where
  declared := fun q hq n hn => by
    rw [h.placements] at hq
    rw [(h.resembles _ (hs.placements q hq).2.1).variablesOn] at hn
    exact h.declaredNames (hc.declared q hq n hn)
  operations := fun d row hrow hk => by
    have key := h.kinds d
    rw [hrow] at key
    obtain ⟨row₀, hrow₀, hkind⟩ := Option.map_eq_some_iff.mp key.symm
    have none_declared := hc.operations d row₀ hrow₀ (hkind ▸ hk)
    refine List.eq_nil_iff_forall_not_mem.mpr fun ⟨id, v'⟩ hv' => ?_
    obtain ⟨hv', hd⟩ := mem_variablesOf.mp hv'
    obtain ⟨v, hv, hdoc, _⟩ := h.exists_declaration hv'
    have hm := mem_variablesOf.mpr ⟨hv, hdoc.symm.trans hd⟩
    rw [none_declared] at hm
    cases hm
  defaults := fun v' hv' d' hd' => by
    obtain ⟨id, hid⟩ := mem_rows_iff.mp hv'
    obtain ⟨v, hv, _, _, _, hdefault⟩ := h.exists_declaration hid
    rw [hd'] at hdefault
    obtain ⟨d, hd, hread⟩ := Option.map_eq_some_iff.mp hdefault.symm
    rw [← hread]
    exact hc.defaults v (mem_rows_of_get? hv) d hd

/-! ## Lists without pages -/

/-- No field is tagged for pages, and no list has them. -/
structure Unpaged (s : Store) : Prop where
  tags : ∀ u ∈ (s.directives .selection).uses.rows, u.name ≠ Framework.paginateTag
  lists : ∀ l ∈ s.lists.rows, l.paginate = .unpaged

theorem Unpaged.preparePagination (h : s.Unpaged) (config : Config) :
    (s.preparePagination config).1 = s := by
  have hnone : s.lists.rows.filter (·.paginate ≠ .unpaged) = [] :=
    List.filter_eq_nil_iff.mpr fun l hl => by simp [h.lists l hl]
  rw [Store.preparePagination, hnone]
  rfl

theorem checkPaging_unpaged {outcome outcome' : Store × Diagnostics} {entry : Int × ListRow}
    (h : outcome.1.Unpaged) (hc : Rule.checkPaging outcome entry = .ok outcome') :
    outcome'.1.Unpaged := by
  obtain ⟨_, rfl⟩ | ⟨tagged, _⟩ := checkPaging_cases hc
  · exact h
  · obtain ⟨u, hu, hname⟩ := List.any_eq_true.mp tagged
    simp [h.tags u hu] at hname

/-- No list has pages when it is discovered. -/
theorem discoverLists_lists (h : ∀ l ∈ s.lists.rows, l.paginate = .unpaged) {config : Config}
    {found : Diagnostics} (hl : s.discoverLists config = .ok (s', found)) :
    ∀ l ∈ s'.lists.rows, l.paginate = .unpaged := by
  intro l hm
  rcases mem_discoverLists hl hm with hm | ⟨_, _, _, _, _, list⟩
  · exact h l hm
  · exact list.unpaged

theorem discoverLists_unpaged (h : s.Unpaged) {config : Config} {found : Diagnostics}
    (hl : s.discoverLists config = .ok (s', found)) : s'.Unpaged := by
  have relists : s' = { s with lists := s'.lists } := discoverLists_relists hl
  refine ⟨?_, discoverLists_lists h.lists hl⟩
  rw [relists]
  exact h.tags

theorem exists_node_iff {site : Site} {x : Int} {tag : String} :
    (∃ node ∈ s.nodes site x, node.name = tag) ↔
      ∃ u ∈ (s.directives site).uses.rows, u.owner = x ∧ u.name = tag := by
  constructor
  · rintro ⟨_, hnode, rfl⟩
    obtain ⟨⟨use, u⟩, hu, rfl⟩ := List.mem_map.mp hnode
    obtain ⟨hu, hx⟩ := List.mem_filter.mp hu
    exact ⟨u, mem_rows_of_get? (get?_of_mem hu), of_decide_eq_true hx, rfl⟩
  · rintro ⟨u, hu, hx, rfl⟩
    obtain ⟨use, huse⟩ := mem_rows_iff.mp hu
    exact ⟨_, List.mem_map_of_mem (List.mem_filter.mpr
      ⟨mem_of_get? huse, decide_eq_true hx⟩), rfl⟩

theorem Agrees.untagged (h : Agrees s s') (hs' : s'.Closed) {tag : String}
    (tags : ∀ u ∈ (s.directives .selection).uses.rows, u.name ≠ tag) :
    ∀ u ∈ (s'.directives .selection).uses.rows, u.name ≠ tag := by
  intro u hu hname
  have hx := (h.present u.owner).symm.trans ((hs'.directives .selection).uses u hu)
  have hnode := exists_node_iff.mpr ⟨u, hu, rfl, hname⟩
  rw [(h.resembles _ hx).nodes] at hnode
  obtain ⟨u₀, hu₀, _, hname₀⟩ := exists_node_iff.mp hnode
  exact tags u₀ hu₀ hname₀

/-! ## From validation to the inliner -/

theorem Closed.contains_of_mentions (h : s.Closed) {x v : Int} (hv : s.Mentions x v) :
    s.selections.contains x := by
  rcases hv with ⟨a, ha, rfl, _⟩ | ⟨a, _, u, hu, rfl, _⟩
  · exact (h.fieldArguments a ha).1
  · exact (h.directives .selection).uses u (mem_rows_of_get? hu)

section

variable {n : Nat} {Field : SelectionRow → Prop} {g t : Store}

theorem Generated.variablesOn (h : Generated n Field s g) (ht : Spreads g t) {x : Int}
    {name : String} (hn : name ∈ t.variablesOn x) : name ∈ s.variablesOn x := by
  obtain ⟨v, hv, hn⟩ := mem_variablesOn.mp hn
  have hread : t.read v = s.read v := by
    rw [ht.rest, h.rest]
    apply read_of_tables <;> rfl
  have hv := ht.mentions x v hv
  rw [h.rest] at hv
  exact mem_variablesOn.mpr ⟨v, hv, hread ▸ hn⟩

theorem Generated.selfContained (h : Generated s.documents.issued Field s g) (ht : Spreads g t)
    (hs : s.Closed) (hc : s.SelfContained) (unshared : t.Unshared) : t.SelfContained := by
  have hplacements : t.placements = g.placements := by rw [ht.rest]
  have hdeclarations : t.declarations = s.declarations := by rw [ht.rest, h.rest]
  have hdocuments : t.documents = g.documents := by rw [ht.rest]
  have hvariables : ∀ d, t.variablesOf d = s.variablesOf d := fun d => by
    rw [variablesOf, variablesOf, hdeclarations]
  refine ⟨fun q hq name hn => ?_, fun d row hrow hk => ?_, fun v hv d hd => ?_⟩
  · have hn₀ := h.variablesOn ht hn
    rw [hplacements] at hq
    rcases h.placements q hq with hq | ⟨hlt, hnew | ⟨q₀, hq₀, hchild⟩⟩
    · rw [declaredNames, hvariables]
      exact hc.declared q hq name hn₀
    · obtain ⟨v, hv, _⟩ := mem_variablesOn.mp hn₀
      have := le_issued_of_contains (hs.contains_of_mentions hv)
      omega
    · -- A borrowed selection is shared with the document that it comes from.
      have hle := le_issued_of_contains (hs.placements q₀ hq₀).2.2
      have hnone := unshared q (hplacements ▸ hq) q₀ (hplacements ▸ h.older q₀ hq₀) hchild.symm
        (by omega)
      rw [hnone] at hn
      cases hn
  · rw [hvariables]
    by_cases hle : d ≤ s.documents.issued
    · rw [hdocuments, h.documents.get?_of_le hle] at hrow
      exact hc.operations d row hrow hk
    · exact hs.variablesOf_eq_nil (by omega)
  · have hread : t.read d = s.read d := by
      rw [ht.rest, h.rest]
      apply read_of_tables <;> rfl
    rw [hread]
    exact hc.defaults v (hdeclarations ▸ hv) d hd

end

end Store

namespace Project

open Store

variable {p : Project} {s₀ s : Store}

theorem analyse_unpaged {found : Diagnostics} (prepared : p.prepare = .ok s₀)
    (analysed : p.analyse s₀ = .ok (s, found))
    (tags : ∀ u ∈ (s₀.loadSources.1.directives .selection).uses.rows,
      u.name ≠ Framework.paginateTag) : s.Unpaged := by
  obtain ⟨ready, hc⟩ := prepare_ready prepared
  have loaded := loadSources_ready ready
  have marked := retypeScalars_marking loaded.ready p.config.runtimeScalars
  have registered := discoverComponentFields_registering marked.ready
    (by rw [marked.schema, loaded.schema]; exact hc)
  obtain ⟨s₁, s₂, _, _, _, h₁, h₂, h₃, _⟩ := analyse_eq_ok analysed
  have unpaged : Unpaged (s₀.loadSources.1.retypeScalars
      p.config.runtimeScalars).1.discoverComponentFields.1 := by
    refine ⟨(marked.agrees.trans registered.agrees).untagged registered.ready.closed tags, ?_⟩
    rw [registered.lists, marked.lists, loaded.lists, prepare_rest prepared]
    exact fun l hl => absurd hl List.not_mem_nil
  exact (Rule.suites_induction (fun _ _ _ => checkPaging_unpaged)
    (discoverLists_unpaged unpaged h₁) h₂ h₃).2

/-- Self-contained documents without pages are handed to the inliner self-contained, if no variable
stands on a shared selection. -/
theorem rewrite_selfContained (prepared : p.prepare = .ok s₀) {found : Diagnostics}
    (analysed : p.analyse s₀ = .ok (s, found))
    (tags : ∀ u ∈ (s₀.loadSources.1.directives .selection).uses.rows,
      u.name ≠ Framework.paginateTag)
    (loaded : s₀.loadSources.1.SelfContained) (unshared : (p.rewrite s).Unshared) :
    (p.rewrite s).SelfContained := by
  obtain ⟨ready, hc⟩ := prepare_ready prepared
  have ready' := analyse_ready ready hc analysed
  have contained := (analyse_agrees prepared analysed).1.selfContained
    (loadSources_ready ready).ready.closed loaded
  have same := (analyse_unpaged prepared analysed tags).preparePagination p.config
  have hrewrite : p.rewrite s = s.generateListOperations.1.spreadComponentFields.1 := by
    change (s.preparePagination p.config).1.generateListOperations.1.spreadComponentFields.1 = _
    rw [same]
  rw [hrewrite] at unshared ⊢
  have generated : Generated s.documents.issued (fun _ => True) s s.generateListOperations.1 :=
    generateListOperations_generated fun _ _ _ _ _ => trivial
  have spread := spreadComponentFields_spreads (generateListOperations_generating ready').ready
  exact generated.selfContained spread ready'.closed contained unshared

end Project

end GraphDoc
