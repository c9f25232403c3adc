import GraphDoc.Proofs.Pagination.Pages

/-!
# What fields pass in the end

A request assigns values to the variables of an operation, and a variable without a value has its
default or is absent. Pagination gives defaults to variables, under names that the document may use
elsewhere. `Store.Captures` says when such a default reaches a variable that had none; all other
fields pass what they passed before unless such a variable is left unassigned.
-/

set_option autoImplicit false

namespace GraphDoc

namespace Value

mutual

/-- The value under an assignment of the variables; a variable may be absent. An absent item of a
list is null, and an absent field of an object is left out. -/
def evaluate (env : String → Option Value) : Value → Option Value
  | node kind raw children =>
    if kind = .var then env raw else some (node kind raw (evaluateAll env children))

def evaluateAll (env : String → Option Value) :
    List (Option String × Value) → List (Option String × Value)
  | [] => []
  | (name?, v) :: rest =>
    match v.evaluate env, name? with
    | some w, _ => (name?, w) :: evaluateAll env rest
    | none, none => (none, .leaf .null "null") :: evaluateAll env rest
    | none, some _ => evaluateAll env rest

end

mutual

def mentioned : Value → List String
  | node kind raw children => if kind = .var then [raw] else mentionedAll children

def mentionedAll : List (Option String × Value) → List String
  | [] => []
  | (_, v) :: rest => v.mentioned ++ mentionedAll rest

end

variable {env env' : String → Option Value}

mutual

theorem evaluate_congr : (v : Value) → (∀ n ∈ v.mentioned, env' n = env n) →
    v.evaluate env' = v.evaluate env
  | node kind raw children, h => by
    rw [evaluate, evaluate]
    rw [mentioned] at h
    split
    · next hk =>
      rw [if_pos hk] at h
      exact h raw (List.mem_singleton_self raw)
    · next hk =>
      rw [if_neg hk] at h
      rw [evaluateAll_congr children h]

theorem evaluateAll_congr : (vs : List (Option String × Value)) →
    (∀ n ∈ mentionedAll vs, env' n = env n) → evaluateAll env' vs = evaluateAll env vs
  | [], _ => rfl
  | (name?, v) :: rest, h => by
    rw [mentionedAll] at h
    have first := evaluate_congr v fun n hn => h n (List.mem_append_left _ hn)
    have others := evaluateAll_congr rest fun n hn => h n (List.mem_append_right _ hn)
    unfold evaluateAll
    rw [first, others]

end

end Value

namespace Binding

def default? (b : Binding) : Option Value := b.declared.head?.bind (·.2)

/-- What the field passes first, unless it is a variable. -/
def literal? (b : Binding) : Option Value := b.passed.head?.filter (·.kind ≠ .var)

theorem default?_declare (type : TypeRef) (default? : Option Value)
    (ds : List (TypeRef × Option Value)) : (declare type default? ds).head?.bind (·.2) =
      (ds.head?.bind (·.2)).orElse fun _ => default? := by
  cases ds with
  | nil => rfl
  | cons d ds => rfl

theorem default?_page (name : String) (type : TypeRef) (b : Binding) :
    (b.page name type).default? = b.default?.orElse fun _ => b.literal? := by
  rw [page, literal?]
  cases hp : b.passed with
  | nil => exact default?_declare ..
  | cons v vs =>
    simp only [List.head?_cons]
    split
    · next hk =>
      rw [Option.filter_some, if_neg (by simp [hk])]
      cases b.default? <;> rfl
    · next hk =>
      rw [Option.filter_some, if_pos (by simp [hk])]
      exact default?_declare ..

end Binding

namespace Store

variable {s t : Store} {d : Int} {n : String} {v : Value}

/-- The default of a variable of a document: that of its first declaration. -/
def default? (s : Store) (d : Int) (n : String) : Option Value :=
  (s.declared d n).head?.bind (·.2)

/-- What a variable of a document stands for: what is assigned to it, or else its default. -/
def assigned (s : Store) (d : Int) (given : String → Option Value) (n : String) : Option Value :=
  (given n).orElse fun _ => s.default? d n

/-- The arguments that a selection of a document passes in the end. -/
def evaluated (s : Store) (d : Int) (given : String → Option Value) (x : Int) :
    List (String × Value) :=
  (s.arguments x).filterMap fun a => (a.2.evaluate (s.assigned d given)).map (a.1, ·)

/-- A paginated field of the document passes the literal `v` as the page argument `n`, and the
document has no default for the variable of that name. -/
structure Captures (s : Store) (d : Int) (n : String) (v : Value) : Prop where
  passed : ∃ q id field, s.Paginates q id field ∧ q.document = d ∧
    n ∈ (s.schema.pageArguments id field).map (·.1) ∧ (s.binding q.child d n).literal? = some v
  bare : s.default? d n = none

end Store

namespace Project

open Store

variable {p : Project} {s₀ s t : Store} {d : Int} {n : String} {v : Value}

theorem default?_of_captures (prepared : p.prepare = .ok s₀) (analysed : p.analyse s₀ = .ok (s, []))
    (ready : s.Ready NoBorrowers) (captures : s.Captures d n v) :
    (s.preparePagination p.config).1.default? d n = some v := by
  obtain ⟨⟨q, id, field, paginates, rfl, hn, literal⟩, bare⟩ := captures
  obtain ⟨l, hl, place, paged, arguments⟩ := analyse_listed analysed ready.closed paginates
  have bound := (paginated_of_analyse prepared analysed ready hl paged).bound
  rw [show l.listField = q.child from congrArg Prod.fst place,
    show l.document = q.document from congrArg Prod.snd place, arguments] at bound
  obtain ⟨a, ha, rfl⟩ := List.mem_map.mp hn
  have page := congrArg Binding.default? (bound a ha)
  rw [Binding.default?_page, literal] at page
  refine page.trans ?_
  rw [show (s.binding q.child q.document a.1).default? = none from bare]
  rfl

theorem default?_preparePagination (prepared : p.prepare = .ok s₀)
    (analysed : p.analyse s₀ = .ok (s, [])) (ready : s.Ready NoBorrowers) :
    (s.preparePagination p.config).1.default? d n = s.default? d n ∨ ∃ v, s.Captures d n v := by
  have pages := preparePagination_pages p.config s
  have paging := preparePagination_paging p.config ready
  -- Only a paginated list of the document can touch its variables, and only under its arguments.
  by_cases outside : ∀ l ∈ s.lists.rows.filter (·.paginate ≠ .unpaged), l.document ≠ d
  · left
    have same := ready.closed.declared_congr (n := n) (pages.declarations d outside) fun v hv =>
      pages.read ready.toSound paging.ready.toSound hv
    rw [default?, default?, same]
  · simp only [not_forall, ne_eq, not_not] at outside
    obtain ⟨l, hl, rfl⟩ := outside
    obtain ⟨hl, paged⟩ := List.mem_filter.mp hl
    have paged := of_decide_eq_true paged
    have paginated := paginated_of_analyse prepared analysed ready hl paged
    by_cases hn : n ∈ l.pageArguments.map (·.1)
    · obtain ⟨a, ha, rfl⟩ := List.mem_map.mp hn
      have page := congrArg Binding.default? (paginated.bound a ha)
      rw [Binding.default?_page] at page
      change default? _ l.document a.1 = (s.default? l.document a.1).orElse _ at page
      rw [page]
      cases hdefault : s.default? l.document a.1 with
      | some w => exact .inl rfl
      | none =>
        cases hliteral : (s.binding l.listField l.document a.1).literal? with
        | none => exact .inl rfl
        | some w =>
          obtain ⟨q, id, field, paginates, place, arguments⟩ :=
            exists_paginates prepared analysed ready.closed hl paged
          rw [show l.listField = q.child from congrArg Prod.fst place,
            show l.document = q.document from congrArg Prod.snd place] at *
          exact .inr ⟨w, ⟨q, id, field, paginates, rfl, arguments ▸ hn, hliteral⟩, hdefault⟩
    · left
      exact congrArg Binding.default? (paginated.others n hn)

theorem arguments_preparePagination (prepared : p.prepare = .ok s₀)
    (analysed : p.analyse s₀ = .ok (s, [])) (ready : s.Ready NoBorrowers) {x : Int}
    (other : s.hasDirective x Framework.paginateTag = false) :
    (s.preparePagination p.config).1.arguments x = s.arguments x := by
  have pages := preparePagination_pages p.config s
  have paging := preparePagination_paging p.config ready
  have rows := pages.arguments x fun l hl same => by
    obtain ⟨hl, paged⟩ := List.mem_filter.mp hl
    have tagged := (analyse_paged prepared analysed l hl (of_decide_eq_true paged)).1
    rw [same, other] at tagged
    cases tagged
  rw [arguments, arguments, rows]
  apply List.map_congr_left
  intro a ha
  have hrow := Table.mem_rows_of_get? (Table.get?_of_mem (List.mem_filter.mp ha).1)
  rw [pages.read ready.toSound paging.ready.toSound (ready.closed.fieldArguments _ hrow).2]

/-- If a compilation finds nothing wrong, a field that is not paginated passes the same values before
and after pagination, for every assignment of the variables that leaves none out that the field
mentions and that is captured. A captured variable that is left out is absent before, and stands for
the literal of the paginated field after. -/
theorem other_fields_keep_arguments {cancelled : Bool} {c : Compiled}
    (h : p.compile cancelled = .ok c) (clean : c.diagnostics = []) (before : p.After .rules s)
    (after : p.After .pagination t) (d : Int) {x : Int}
    (other : s.hasDirective x Framework.paginateTag = false) (given : String → Option Value) :
    ((∀ n v, s.Captures d n v → (∃ a ∈ s.arguments x, n ∈ a.2.mentioned) → given n ≠ none) →
      t.evaluated d given x = s.evaluated d given x) ∧
    ∀ n v, s.Captures d n v → given n = none →
      s.assigned d given n = none ∧ t.assigned d given n = some v := by
  obtain ⟨ready, rfl, s₀, prepared, analysed⟩ := After.paginated h clean before after
  constructor
  · intro covered
    rw [evaluated, evaluated, arguments_preparePagination prepared analysed ready other]
    apply List.filterMap_congr
    intro a ha
    have same : a.2.evaluate ((s.preparePagination p.config).1.assigned d given) =
        a.2.evaluate (s.assigned d given) := by
      -- The values mention the same variables, so only their defaults can differ.
      apply Value.evaluate_congr
      intro n hn
      rw [assigned, assigned]
      cases hgiven : given n with
      | some w => rfl
      | none =>
        rcases default?_preparePagination (d := d) (n := n) prepared analysed ready with
          kept | ⟨v, captures⟩
        · rw [kept]
        · exact absurd hgiven (covered n v captures ⟨a, ha, hn⟩)
    rw [same]
  · intro n v captures hgiven
    rw [assigned, assigned, hgiven]
    exact ⟨captures.bare, default?_of_captures prepared analysed ready captures⟩

/-- The field `y`, which is not paginated, and the paginated field `q` of the same operation. -/
def sharesOperation (s : Store) (y q : Placement) : Bool :=
  y.document = q.document && (s.documents.get? y.document).any (·.kind.isOperation) &&
  (s.selections.get? y.child).any (·.kind = .field) &&
  !s.hasDirective y.child Framework.paginateTag && s.hasDirective q.child Framework.paginateTag

/-- Without assignments `y` passes nothing before pagination and something after. The paginated field
passes a literal under the name of a variable that `y` mentions. -/
def capturesLimit (s : Store) (y q : Placement) : Bool :=
  (s.evaluated y.document (fun _ => none) y.child).isEmpty &&
  !((s.preparePagination feed.config).1.evaluated y.document (fun _ => none) y.child).isEmpty &&
  (s.arguments y.child).any (fun a => a.2.mentioned.contains "limit") &&
  (s.default? y.document "limit").isNone &&
  (s.binding q.child y.document "limit").literal?.isSome &&
  (s.selections.get? q.child).any fun row => row.kind = .field && row.type?.any fun id =>
    (s.schema.fields.get? id).any fun field =>
      ((s.schema.pageArguments id field).map (·.1)).contains "limit"

set_option maxRecDepth 100000 in
theorem feed_capturesLimit : (feedSpelling.analysis?.any fun e => e.2.placements.rows.any fun y =>
    e.2.placements.rows.any fun q => sharesOperation e.2 y q && capturesLimit e.2 y q) = true := by
  decide +kernel

/-- Passing a value for the captured variable keeps what the other field of the feed passes. -/
theorem feed_other_fields_keep_arguments : ∃ c s t d x v,
    feed.compile false = .ok c ∧ c.diagnostics = [] ∧ feed.After .rules s ∧
    feed.After .pagination t ∧ s.hasDirective x Framework.paginateTag = false ∧
    s.Captures d "limit" v ∧ (∃ a ∈ s.arguments x, "limit" ∈ a.2.mentioned) ∧
    t.evaluated d (fun _ => some (.leaf .int "5")) x =
      s.evaluated d (fun _ => some (.leaf .int "5")) x ∧
    t.assigned d (fun _ => none) "limit" = some v := by
  obtain ⟨s₀, s, prepared, analysed, check⟩ := feedSpelling.exists_of_any feed_capturesLimit
  obtain ⟨c, compiled, clean, -⟩ := compile_of_analyse prepared analysed
  have before : feed.After .rules s := .of_analyse prepared analysed
  simp only [sharesOperation, capturesLimit, List.any_eq_true, Option.any_eq_true,
    Bool.and_eq_true, Bool.not_eq_true', decide_eq_true_eq, List.contains_iff_mem,
    Option.isNone_iff_eq_none, Option.isSome_iff_exists] at check
  obtain ⟨y, hy, q, hq, ⟨⟨⟨⟨same, _⟩, _⟩, other⟩, tagged⟩, ⟨⟨⟨_, mentions⟩, bare⟩, v, literal⟩, row,
    hrow, hk, id, typed, field, known, hn⟩ := check
  have captures : s.Captures y.document "limit" v :=
    ⟨⟨q, id, field, ⟨hq, ⟨row, hrow, hk, typed⟩, tagged, known⟩, same.symm, hn, literal⟩, bare⟩
  have keeps := other_fields_keep_arguments compiled clean before (.paginate before) y.document other
  exact ⟨c, s, _, y.document, y.child, v, compiled, clean, before, .paginate before, other, captures,
    mentions, (keeps _).1 fun _ _ _ _ => Option.some_ne_none _, ((keeps _).2 _ v captures rfl).2⟩

/-- Passing no value changes what it passes: the literal of the paginated field reaches it. -/
theorem feed_changes_other_field : ∃ c s t y q row document,
    feed.compile false = .ok c ∧ c.diagnostics = [] ∧ feed.After .rules s ∧
    feed.After .pagination t ∧ s.documents.get? y.document = some document ∧
    document.kind.isOperation = true ∧ q ∈ s.placements.rows ∧ q.document = y.document ∧
    s.hasDirective q.child Framework.paginateTag = true ∧ y ∈ s.placements.rows ∧
    s.selections.get? y.child = some row ∧ row.kind = .field ∧
    s.hasDirective y.child Framework.paginateTag = false ∧
    t.evaluated y.document (fun _ => none) y.child ≠
      s.evaluated y.document (fun _ => none) y.child := by
  obtain ⟨s₀, s, prepared, analysed, check⟩ := feedSpelling.exists_of_any feed_capturesLimit
  obtain ⟨c, compiled, clean, -⟩ := compile_of_analyse prepared analysed
  have before : feed.After .rules s := .of_analyse prepared analysed
  simp only [sharesOperation, capturesLimit, List.any_eq_true, Option.any_eq_true,
    Bool.and_eq_true, Bool.not_eq_true', decide_eq_true_eq] at check
  obtain ⟨y, hy, q, hq, ⟨⟨⟨⟨same, document, hd, operation⟩, row, hrow, hk⟩, other⟩, tagged⟩,
    ⟨⟨⟨⟨absent, present⟩, _⟩, _⟩, _⟩, _⟩ := check
  refine ⟨c, s, _, y, q, row, document, compiled, clean, before, .paginate before, hd, operation,
    hq, same.symm, tagged, hy, hrow, hk, other, fun equal => ?_⟩
  rw [equal, absent] at present
  cases present

end Project

end GraphDoc
