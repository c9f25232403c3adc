import GraphDoc.Proofs.Pagination.Lists
import GraphDoc.Proofs.Stages

/-!
# Paginated fields read their pages from variables

In a compilation that finds nothing wrong, each page argument of a paginated field is bound to a
variable by the rule `Binding.page`, and nothing else that the field passes or its document declares
changes.
-/

set_option autoImplicit false

namespace GraphDoc

namespace Project

open Store

variable {p : Project} {s t : Store}

/-- The store that a clean compilation validates is the one that it paginates. -/
theorem After.paginated {cancelled : Bool} {c : Compiled} (h : p.compile cancelled = .ok c)
    (clean : c.diagnostics = []) (before : p.After .rules s) (after : p.After .pagination t) :
    s.Ready NoBorrowers ∧ t = (s.preparePagination p.config).1 ∧
      ∃ s₀, p.prepare = .ok s₀ ∧ p.analyse s₀ = .ok (s, []) := by
  obtain ⟨s₀, s', prepared, analysed, _⟩ := compile_clean h clean
  obtain rfl := before.unique (.of_analyse prepared analysed) nofun
  exact ⟨before.keeps, after.unique (.paginate before) nofun, s₀, prepared, analysed⟩

/-- The list of a paginated field is paginated by itself. -/
theorem paginated_of_analyse {s₀ : Store} (prepared : p.prepare = .ok s₀)
    (analysed : p.analyse s₀ = .ok (s, [])) (ready : s.Ready NoBorrowers) {l : ListRow}
    (hl : l ∈ s.lists.rows) (paged : l.paginate ≠ .unpaged) :
    Paginated p.config l s (s.preparePagination p.config).1 := by
  have hl : l ∈ s.lists.rows.filter (·.paginate ≠ .unpaged) :=
    List.mem_filter.mpr ⟨hl, decide_eq_true paged⟩
  have apart := analyse_apart prepared analysed
  obtain ⟨first, last, split⟩ := List.append_of_mem hl
  rw [split] at apart
  obtain ⟨_, below, above⟩ := List.pairwise_append.mp apart
  have documents : ∀ k ∈ first ++ last, k.document ≠ l.document := by
    intro k hk
    rcases List.mem_append.mp hk with hk | hk
    · exact above k hk l List.mem_cons_self
    · exact Ne.symm ((List.pairwise_cons.mp below).1 k hk)
  have listed : ∀ k ∈ first ++ last, k ∈ s.lists.rows := by
    intro k hk
    have hm : k ∈ first ++ l :: last := by
      rcases List.mem_append.mp hk with hk | hk
      · exact List.mem_append_left _ hk
      · exact List.mem_append_right _ (List.mem_cons_of_mem l hk)
    rw [← split] at hm
    exact (List.mem_filter.mp hm).1
  apply preparePagination_paginated p.config ready split
  intro k hk
  refine ⟨fun same => documents k hk ?_, documents k hk⟩
  -- A field is placed in one document only.
  obtain ⟨q, hq, hchild, hdocument⟩ := (ready.roots (listed k hk)).placed
  obtain ⟨q', hq', hchild', hdocument'⟩ := (ready.roots (List.mem_filter.mp hl).1).placed
  have home := ready.homed q hq q' hq' (by rw [hchild, hchild', same]) id id
  exact hdocument.symm.trans (home.trans hdocument')

/-- The field of a paginated list is paginated, and the list pages with its arguments. -/
theorem exists_paginates {s₀ : Store} (prepared : p.prepare = .ok s₀)
    (analysed : p.analyse s₀ = .ok (s, [])) (closed : s.Closed) {l : ListRow}
    (hl : l ∈ s.lists.rows) (paged : l.paginate ≠ .unpaged) :
    ∃ q id field, s.Paginates q id field ∧ l.place = (q.child, q.document) ∧
      l.pageArguments = s.schema.pageArguments id field := by
  obtain ⟨q, id, field, paginates, place⟩ := analyse_paginates prepared analysed hl paged
  obtain ⟨k, hk, place', paged', arguments⟩ := analyse_listed analysed closed paginates
  have documents : ((s.lists.rows.filter (·.paginate ≠ .unpaged)).map (·.document)).Nodup :=
    List.pairwise_map.mpr (analyse_apart prepared analysed)
  have one : l = k := List.inj_on_of_nodup_map documents
    (List.mem_filter.mpr ⟨hl, decide_eq_true paged⟩)
    (List.mem_filter.mpr ⟨hk, decide_eq_true paged'⟩)
    (congrArg Prod.snd (place.trans place'.symm))
  exact ⟨q, id, field, paginates, place, one ▸ arguments⟩

/-- If a compilation finds nothing wrong, each page argument of a paginated field is read from a
variable afterwards, other names are left alone, and an operation that is not deduplicated gets the
directive for it, unless the configuration says otherwise. -/
theorem page_arguments_bound {cancelled : Bool} {c : Compiled} (h : p.compile cancelled = .ok c)
    (clean : c.diagnostics = []) (before : p.After .rules s) (after : p.After .pagination t)
    {q : Placement} {id : String} {field : FieldRow} (paginates : s.Paginates q id field) :
    (∀ a ∈ s.schema.pageArguments id field,
      t.binding q.child q.document a.1 =
        (s.binding q.child q.document a.1).page a.1 ⟨a.2, ""⟩ ∧
      ∃ v ∈ t.passedAs q.child a.1, v.kind = .var) ∧
    (∀ n ∉ (s.schema.pageArguments id field).map (·.1),
      t.binding q.child q.document n = s.binding q.child q.document n) ∧
    (p.config.suppressPaginationDeduplication = false ∧ s.Repeatable q.document →
      t.nodes .document q.document = s.nodes .document q.document ++ [dedupeNode]) ∧
    (¬ (p.config.suppressPaginationDeduplication = false ∧ s.Repeatable q.document) →
      t.nodes .document q.document = s.nodes .document q.document) := by
  obtain ⟨ready, rfl, s₀, prepared, analysed⟩ := After.paginated h clean before after
  obtain ⟨l, hl, place, paged, arguments⟩ := analyse_listed analysed ready.closed paginates
  obtain ⟨bound, others, deduplicated, kept⟩ := paginated_of_analyse prepared analysed ready hl paged
  rw [show l.listField = q.child from congrArg Prod.fst place,
    show l.document = q.document from congrArg Prod.snd place, arguments] at *
  refine ⟨fun a ha => ⟨bound a ha, ?_⟩, others, fun hr => deduplicated hr.1 hr.2, kept⟩
  obtain ⟨v, hv, hk⟩ := Binding.exists_var_page a.1 ⟨a.2, ""⟩ (s.binding q.child q.document a.1)
  rw [← bound a ha] at hv
  exact ⟨v, hv, hk⟩

/-! ## A feed -/

/-- A plain list, whose literal becomes the default of a variable that another field uses too, and a
connection that pages both ways. -/
def feed : Project where
  schema := "type Query \x7b
      users(limit: Int, offset: Int): [User]
      friends(first: Int, after: String, last: Int, before: String): Friends
      posts(limit: Int): [User]
    \x7d
    type Friends \x7b edges: [Friend] \x7d
    type Friend \x7b node: User \x7d
    type User \x7b id: ID \x7d"
  sources := [{
    filepath := "feed.graphql"
    content := "query Plain($limit: Int) \x7b
        users(limit: 10) @paginate \x7b id \x7d
        posts(limit: $limit) \x7b id \x7d
      \x7d
      query Both($size: Int = 5, $last: Int) \x7b
        friends(first: $size, last: 3, after: \"a\") @paginate(mode: SinglePage) \x7b
          edges \x7b node \x7b id \x7d \x7d
        \x7d
      \x7d" }]

set_option maxRecDepth 10000 in
def feedSpelling : Spelling feed := ⟨_, [_], rfl, rfl⟩

/-- Some field pages both ways in an operation that is not deduplicated. -/
def pagesBothWays (s : Store) : Bool :=
  s.placements.rows.any fun q => (s.selections.get? q.child).any fun row =>
    row.kind = .field && s.hasDirective q.child Framework.paginateTag && s.wantsDedupe q.document &&
      row.type?.any fun id => (s.schema.fields.get? id).any fun field =>
        s.schema.pageArguments id field =
          [("first", "Int"), ("after", "String"), ("last", "Int"), ("before", "String")]

set_option maxRecDepth 100000 in
theorem feed_pagesBothWays : (feedSpelling.analysis?.any fun e => pagesBothWays e.2) = true := by
  decide +kernel

theorem feed_page_arguments_bound : ∃ c s t q id field,
    feed.compile false = .ok c ∧ c.diagnostics = [] ∧ feed.After .rules s ∧
    feed.After .pagination t ∧ s.Paginates q id field ∧
    s.schema.pageArguments id field =
      [("first", "Int"), ("after", "String"), ("last", "Int"), ("before", "String")] ∧
    (∀ a ∈ s.schema.pageArguments id field, t.binding q.child q.document a.1 =
      (s.binding q.child q.document a.1).page a.1 ⟨a.2, ""⟩) ∧
    t.nodes .document q.document = s.nodes .document q.document ++ [dedupeNode] := by
  obtain ⟨s₀, s, prepared, analysed, check⟩ := feedSpelling.exists_of_any feed_pagesBothWays
  obtain ⟨c, compiled, clean, -⟩ := compile_of_analyse prepared analysed
  have before : feed.After .rules s := .of_analyse prepared analysed
  simp only [pagesBothWays, List.any_eq_true, Option.any_eq_true, Bool.and_eq_true,
    decide_eq_true_eq] at check
  obtain ⟨q, hq, row, hrow, ⟨⟨hk, tagged⟩, wants⟩, id, typed, field, known, arguments⟩ := check
  have paginates : s.Paginates q id field := ⟨hq, ⟨row, hrow, hk, typed⟩, tagged, known⟩
  obtain ⟨bound, _, deduplicated, _⟩ :=
    page_arguments_bound compiled clean before (.paginate before) paginates
  exact ⟨c, s, _, q, id, field, compiled, clean, before, .paginate before, paginates, arguments,
    fun a ha => (bound a ha).1, deduplicated ⟨rfl, wantsDedupe_iff.mp wants⟩⟩

end Project

end GraphDoc
