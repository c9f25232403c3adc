import GraphDoc.Proofs.Names
import GraphDoc.Proofs.Variables

/-!
# What rewriting leaves alone

Pagination touches the fields that are paginated and the documents that they are in, list operations
bring documents of their own, and component fields become spreads. Everything else of a document
stays as it was when it was validated.
-/

set_option autoImplicit false

namespace GraphDoc

open Table

namespace Store

variable {s s' s'' : Store} {G : Int → Prop}

/-! ## Pagination -/

/-- `t` is `s` with some of the lists `ls` paginated. -/
structure Pages (ls : List ListRow) (s t : Store) : Prop where
  values : Table.Grows (fun _ => True) s.values t.values
  links : t.valueLinks = s.valueLinks
  arguments : ∀ x, (∀ l ∈ ls, l.listField ≠ x) → t.argumentRows x = s.argumentRows x
  declarations : ∀ d, (∀ l ∈ ls, l.document ≠ d) → t.variablesOf d = s.variablesOf d
  uses : Table.Grows (fun u => ∃ l ∈ ls, l.document = u.owner) s.documentDirectives.uses
    t.documentDirectives.uses
  directiveArguments : Table.Grows (fun a => (s.documentDirectives.uses.issued : Int) < a.owner)
    s.documentDirectives.arguments t.documentDirectives.arguments
  nonNull : ∀ id v, t.declarations.get? id = some v → v.type.isNonNull = true → ∃ v₀,
    s.declarations.get? id = some v₀ ∧
      v = { v₀ with default? := v₀.default?.orElse fun _ => v.default? }
  declared : ∀ id v, s.declarations.get? id = some v → ∃ v', t.declarations.get? id = some v' ∧
    v'.document = v.document ∧ v'.name = v.name

variable {ls : List ListRow} {l : ListRow}

theorem Pages.refl (ls : List ListRow) (s : Store) : Pages ls s s where
  values := .refl
  links := rfl
  arguments _ _ := rfl
  declarations _ _ := rfl
  uses := .refl
  directiveArguments := .refl
  nonNull id v hv _ := ⟨v, hv, by cases v with | mk d n t o p => cases o <;> rfl⟩
  declared _ v hv := ⟨v, hv, rfl, rfl⟩

theorem Pages.trans (h : Pages ls s s') (h' : Pages ls s' s'') : Pages ls s s'' where
  values := h.values.trans h'.values
  links := h'.links.trans h.links
  arguments x hx := (h'.arguments x hx).trans (h.arguments x hx)
  declarations d hd := (h'.declarations d hd).trans (h.declarations d hd)
  uses := h.uses.trans h'.uses
  directiveArguments := h.directiveArguments.trans <| h'.directiveArguments.mono fun a ha => by
    have := h.uses.issued_le
    omega
  nonNull id v hv hn := by
    obtain ⟨v₁, hv₁, he₁⟩ := h'.nonNull id v hv hn
    obtain ⟨v₀, hv₀, he₀⟩ := h.nonNull id v₁ hv₁ (by rw [he₁] at hn; exact hn)
    refine ⟨v₀, hv₀, ?_⟩
    rw [he₁, he₀]
    cases v₀.default? <;> rfl
  declared id v hv := by
    obtain ⟨v₁, hv₁, hd₁, hn₁⟩ := h.declared id v hv
    obtain ⟨v₂, hv₂, hd₂, hn₂⟩ := h'.declared id v₁ hv₁
    exact ⟨v₂, hv₂, hd₂.trans hd₁, hn₂.trans hn₁⟩

theorem argumentRows_eraseArgument {id x : Int} {a : FieldArgument}
    (ha : s.fieldArguments.get? id = some a) (hx : a.selection ≠ x) :
    Store.argumentRows { s with fieldArguments := s.fieldArguments.erase id } x =
      s.argumentRows x := by
  rw [argumentRows, argumentRows, erase, filterRows, List.filter_filter]
  refine List.filter_congr fun e he => ?_
  by_cases hid : e.1 = id
  · have : s.fieldArguments.get? e.1 = some e.2 := get?_of_mem he
    rw [hid, ha] at this
    cases this
    simp [hx]
  · simp [hid]

theorem passVariable_pages (hl : l ∈ ls) (p : Position) (name : String) (type : TypeRef) :
    Pages ls s (s.passVariable l p name type) where
  values := .push .refl trivial
  links := rfl
  arguments x hx := by
    refine (argumentRows_addFieldArgument ..).trans ?_
    rw [if_neg (hx l hl), List.append_nil]
    rfl
  declarations _ _ := rfl
  uses := .refl
  directiveArguments := .refl
  nonNull := (Pages.refl ls s).nonNull
  declared := (Pages.refl ls s).declared

theorem eraseArgument_pages (hl : l ∈ ls) {id : Int} {a : FieldArgument}
    (ha : s.fieldArguments.get? id = some a) (hs : a.selection = l.listField) :
    Pages ls s { s with fieldArguments := s.fieldArguments.erase id } :=
  { Pages.refl ls s with
    arguments := fun _ hx => argumentRows_eraseArgument ha (hs ▸ hx l hl) }

theorem declareWithDefault_pages (hl : l ∈ ls) (p : Position) (name typeName : String)
    (default? : Option Int) :
    Pages ls s (s.declareWithDefault l.document p name ⟨typeName, ""⟩ default?) := by
  rw [declareWithDefault]
  split
  · refine { Pages.refl ls s with
      declarations := fun d hd => ?_, nonNull := fun id v hv hn => ?_
      declared := fun id v hv => ⟨v, get?_push_of_get? hv, rfl, rfl⟩ }
    · have grown : Table.Grows (fun v : VariableRow => v.document = l.document) s.declarations
          (s.declarations.push ⟨l.document, name, ⟨typeName, ""⟩, default?, p⟩) := .push .refl rfl
      exact grown.filter_entries (q := fun v => decide (v.document = d)) fun v hv =>
        decide_eq_false (hv ▸ hd l hl)
    · change (s.declarations.push _).get? id = some v at hv
      rw [get?_push] at hv
      split at hv
      · cases hv
        exact absurd hn (show ¬ Modifiers.isNonNull "" = true by decide)
      · exact (Pages.refl ls s).nonNull id v hv hn
  · next id row hrow =>
    have hm := List.mem_filter.mp (List.mem_of_find?_eq_some hrow)
    have hget : s.declarations.get? id = some row := get?_of_mem hm.1
    refine { Pages.refl ls s with
      declarations := fun d hd => ?_, nonNull := fun n v hv hn => ?_
      declared := fun n v hv => ?_ }
    · refine (filter_entries_modify _ _ _ (fun v : VariableRow => decide (v.document = d))
        ?_).trans ?_
      · exact fun _ => rfl
      refine (List.map_congr_left fun e he => ?_).trans (List.map_id _)
      refine if_neg fun hid => hd l hl ?_
      have he := List.mem_filter.mp he
      have hsame : s.declarations.get? e.1 = some e.2 := get?_of_mem he.1
      rw [hid, hget] at hsame
      cases hsame
      exact (of_decide_eq_true hm.2).symm.trans (of_decide_eq_true he.2)
    · change (s.declarations.modify id _).get? n = some v at hv
      rw [get?_modify] at hv
      split at hv
      · next he =>
        subst he
        rw [hget] at hv
        cases hv
        refine ⟨row, hget, ?_⟩
        cases row with | mk d m t o q => cases o <;> rfl
      · exact (Pages.refl ls s).nonNull n v hv hn
    · have hmodify := get?_modify s.declarations id n fun v =>
        { v with default? := v.default?.orElse fun _ => default? }
      rw [hv] at hmodify
      split at hmodify <;> exact ⟨_, hmodify, rfl, rfl⟩

theorem bindPageArgument_pages (hl : l ∈ ls) (p : Position) (argument : String × String) :
    Pages ls s (bindPageArgument l p s argument) := by
  rw [bindPageArgument]
  split
  · exact (passVariable_pages hl ..).trans (declareWithDefault_pages hl ..)
  · next id value row hpassed =>
    split
    · exact .refl ls s
    · obtain ⟨e, he, hsome⟩ := List.exists_of_findSome?_eq_some hpassed
      obtain ⟨hm, hs⟩ := List.mem_filter.mp he
      simp only [Option.ite_none_right_eq_some, Option.map_eq_some_iff, Prod.mk.injEq] at hsome
      obtain ⟨_, _, _, rfl, _⟩ := hsome
      exact (eraseArgument_pages hl (get?_of_mem hm) (of_decide_eq_true hs)).trans
        ((passVariable_pages hl ..).trans (declareWithDefault_pages hl ..))

theorem addDedupe_pages (hl : l ∈ ls) (p : Position) : Pages ls s (s.addDedupe l.document p) :=
  { Pages.refl ls s with
    values := .push .refl trivial
    uses := .push .refl ⟨l, hl, rfl⟩
    directiveArguments := .push .refl s.documentDirectives.uses.issued_lt_nextId }

theorem paginateList_pages (config : Config) (hl : l ∈ ls) : Pages ls s (paginateList config s l) := by
  rw [paginateList]
  have bound : Pages ls s (l.pageArguments.foldl (bindPageArgument l (s.listPosition l)) s) :=
    List.foldlRecOn (motive := fun t => Pages ls s t) _ _ (.refl ls s)
      fun _ h a _ => h.trans (bindPageArgument_pages hl _ a)
  split
  · exact bound.trans (addDedupe_pages hl _)
  · exact bound

theorem preparePagination_pages (config : Config) (s : Store) :
    Pages (s.lists.rows.filter (·.paginate ≠ .unpaged)) s (s.preparePagination config).1 :=
  List.foldlRecOn (motive := fun t => Pages _ s t) _ _ (.refl _ s)
    fun _ h _ hl => h.trans (paginateList_pages config hl)

/-- Old values read as before while new ones come. -/
theorem Sound.read_grows {G' : Int → Prop} (hs : s.Sound G) (hs' : s'.Sound G')
    (values : Table.Grows (fun _ => True) s.values s'.values) (links : s'.valueLinks = s.valueLinks)
    {v : Int} (hv : s.values.contains v) : s'.read v = s.read v := by
  refine hs.read_frame hs' (P := fun v => s.values.contains v) (fun id hid => ?_) hv
  refine ⟨hid, ?_, ?_, fun l hl => hs.contains_child hl⟩
  · obtain ⟨row, hrow⟩ := contains_iff.mp hid
    rw [values.get?_of_get? hrow, hrow]
  · rw [linksOf, linksOf, links]

theorem Pages.read (h : Pages ls s s') {G' : Int → Prop} (hs : s.Sound G) (hs' : s'.Sound G')
    {v : Int} (hv : s.values.contains v) : s'.read v = s.read v :=
  hs.read_grows hs' h.values h.links hv

/-! ## Lists with pages -/

/-- The field of a list is tagged for pages, and the schema gives it arguments. -/
def Asked (s : Store) (l : ListRow) : Prop :=
  s.hasDirective l.listField Framework.paginateTag = true ∧ Rule.declaredArguments s l ≠ []

/-- Only lists that ask for pages have them. -/
def Paged (s : Store) : Prop := ∀ l ∈ s.lists.rows, l.paginate ≠ .unpaged → s.Asked l

theorem declaredArguments_ne_nil {applied : List String} {p : Rule.Paging}
    (h : Rule.paging s l applied = .ok p) : Rule.declaredArguments s l ≠ [] := by
  intro hnil
  rw [Rule.paging, hnil] at h
  split at h
  · cases h
  · simp only at h
    split at h
    · simp [Rule.connectionPaging, throw, throwThe, MonadExceptOf.throw] at h
      cases h
    · simp [Rule.offsetPaging, throw, throwThe, MonadExceptOf.throw] at h
      cases h

/-- What checking the lists of `s` one by one keeps. -/
structure Checking (s t : Store) : Prop where
  relists : Relists s t
  fields : ∀ id l, t.lists.get? id = some l → ∃ l₀, s.lists.get? id = some l₀ ∧
    l.listField = l₀.listField
  paged : t.Paged

theorem Checking.checkPaging {outcome outcome' : Store × Diagnostics} {entry : Int × ListRow}
    (h : Checking s outcome.1) (he : entry ∈ s.lists.entries)
    (hc : Rule.checkPaging outcome entry = .ok outcome') : Checking s outcome'.1 := by
  have relists := checkPaging_relists h.relists hc
  obtain ⟨_, rfl⟩ | ⟨tagged, ⟨_, p, hp, rfl⟩ | ⟨_, rfl⟩⟩ := checkPaging_cases hc
  · exact h
  · refine ⟨relists, fun n row hrow => ?_, fun row hrow hpaged => ?_⟩
    · rw [get?_modify] at hrow
      split at hrow
      · obtain ⟨row₀, hrow₀, rfl⟩ := Option.map_eq_some_iff.mp hrow
        exact h.fields n row₀ hrow₀
      · exact h.fields n row hrow
    · rcases mem_rows_modify hrow with hrow | ⟨row₀, hrow₀, rfl⟩
      · exact h.paged row hrow hpaged
      · -- The list is still the one that was checked.
        obtain ⟨l₀, hl₀, hsame⟩ := h.fields entry.1 row₀ hrow₀
        rw [get?_of_mem he] at hl₀
        cases hl₀
        have declared := declaredArguments_ne_nil hp
        rw [← hsame] at tagged
        rw [Rule.declaredArguments, ← hsame] at declared
        exact ⟨tagged, declared⟩
  · exact h

theorem keeps_paged : Rule.Keeps Paged Rule.paginateArguments := by
  intro _ s _ h hr
  have start : Checking s s := ⟨.refl s, fun _ l hl => ⟨l, hl, rfl⟩, h⟩
  exact (foldlM_induction (P := fun t => Checking s t.1) s.lists.entries
    (fun _ _ _ he ht hc => ht.checkPaging he hc) start hr).paged

/-- Lists are those of fields. -/
def ListsFields (s : Store) : Prop := ∀ l ∈ s.lists.rows,
  ∃ row, s.selections.get? l.listField = some row ∧ row.kind = .field

theorem ListsFields.checkPaging {outcome outcome' : Store × Diagnostics} {entry : Int × ListRow}
    (h : outcome.1.ListsFields) (hc : Rule.checkPaging outcome entry = .ok outcome') :
    outcome'.1.ListsFields := by
  obtain ⟨_, rfl⟩ | ⟨_, ⟨_, p, _, rfl⟩ | ⟨_, rfl⟩⟩ := checkPaging_cases hc
  · exact h
  · intro l hl
    rcases mem_rows_modify hl with hl | ⟨l₀, hl₀, rfl⟩
    · exact h l hl
    · exact h l₀ (mem_rows_of_get? hl₀)
  · exact h

theorem discoverLists_listsFields (none : s.lists.rows = []) {config : Config}
    {found : Diagnostics} (h : s.discoverLists config = .ok (s', found)) : s'.ListsFields := by
  intro l hl
  rw [show s' = _ from discoverLists_relists h]
  rcases mem_discoverLists h hl with hl | ⟨t, ht, _, _, _, list⟩
  · exact absurd hl (none ▸ List.not_mem_nil)
  · rw [list.listField]
    exact (mem_taggedFields ht).2

/-! ## Component fields -/

section

variable {x use : Int}

/-- What stands on a selection is the same in both stores. -/
structure SameOn (s t : Store) (x : Int) : Prop where
  row : t.selections.get? x = s.selections.get? x
  arguments : t.arguments x = s.arguments x
  nodes : t.nodes .selection x = s.nodes .selection x

theorem SameOn.refl (s : Store) (x : Int) : SameOn s s x := ⟨rfl, rfl, rfl⟩

theorem SameOn.trans (h : SameOn s s' x) (h' : SameOn s' s'' x) : SameOn s s'' x :=
  ⟨h'.row.trans h.row, h'.arguments.trans h.arguments, h'.nodes.trans h.nodes⟩

theorem foldl_moveArgument (use : Int) (as : List (Int × FieldArgument)) (s : Store) :
    (∀ id, (as.foldl (moveArgument use) s).fieldArguments.get? id =
      if id ∈ as.map (·.1) then none else s.fieldArguments.get? id) ∧
    (∀ n, n ≠ use → ((as.foldl (moveArgument use) s).directives .selection).argumentsOf n =
      (s.directives .selection).argumentsOf n) ∧
    (((as.foldl (moveArgument use) s).directives .selection).argumentsOf use).map
        (fun a => (a.2.name, a.2.value)) =
      ((s.directives .selection).argumentsOf use).map (fun a => (a.2.name, a.2.value)) ++
        as.map fun a => (a.2.name, a.2.value) := by
  induction as generalizing s with
  | nil => exact ⟨fun _ => rfl, fun _ _ => rfl, (List.append_nil _).symm⟩
  | cons a as ih =>
    obtain ⟨fields, others, moved⟩ := ih (moveArgument use s a)
    have added : ∀ n, ((moveArgument use s a).directives .selection).argumentsOf n = _ :=
      argumentsOf_addDirectiveArgument s .selection ⟨use, a.2.name, a.2.value, a.2.position⟩
    refine ⟨fun id => ?_, fun n hn => ?_, ?_⟩
    · rw [List.foldl_cons, fields, List.map_cons]
      have erased : (moveArgument use s a).fieldArguments.get? id =
          if id = a.1 then none else s.fieldArguments.get? id := get?_erase ..
      rw [erased]
      by_cases hid : id = a.1
      · simp [hid]
      · simp only [List.mem_cons, hid, false_or, if_false]
    · rw [List.foldl_cons, others n hn, added, if_neg (Ne.symm hn), List.append_nil]
    · rw [List.foldl_cons, moved, added, if_pos rfl, List.map_append, List.append_assoc]
      rfl

theorem foldl_moveArgument_rest (use : Int) (as : List (Int × FieldArgument)) (s : Store) :
    as.foldl (moveArgument use) s = { s with
      selectionDirectives := { s.selectionDirectives with
        arguments := (as.foldl (moveArgument use) s).selectionDirectives.arguments }
      fieldArguments := (as.foldl (moveArgument use) s).fieldArguments } := by
  induction as generalizing s with
  | nil => rfl
  | cons a as ih =>
    rw [List.foldl_cons, ih]
    rfl

theorem argumentRows_foldl_moveArgument {as : List (Int × FieldArgument)}
    (has : ∀ a ∈ as, s.fieldArguments.get? a.1 = some a.2 ∧ a.2.selection ≠ x)
    (distinct : as.Pairwise fun a b => a.1 < b.1) :
    (as.foldl (moveArgument use) s).argumentRows x = s.argumentRows x := by
  induction as generalizing s with
  | nil => rfl
  | cons a as ih =>
    obtain ⟨hlt, distinct⟩ := List.pairwise_cons.mp distinct
    obtain ⟨hget, hne⟩ := has a List.mem_cons_self
    rw [List.foldl_cons, ih (fun b hb => ?_) distinct]
    · exact argumentRows_eraseArgument (s := (s.addDirectiveArgument .selection
        ⟨use, a.2.name, a.2.value, a.2.position⟩).1) hget hne
    · obtain ⟨hget', hne'⟩ := has b (List.mem_cons_of_mem a hb)
      refine ⟨?_, hne'⟩
      have hne : b.1 ≠ a.1 := by
        have := hlt b hb
        omega
      exact ((get?_erase ..).trans (if_neg hne)).trans hget'

theorem spreadArguments_on (hs : s.Closed) (x : Int) (p : Position) :
    let marked := s.addDirective .selection ⟨x, Framework.withTag, p⟩
    let moved := (s.argumentRows x).foldl (moveArgument marked.2) marked.1
    moved.selections = s.selections ∧ moved.arguments x = [] ∧
    moved.nodes .selection x = s.nodes .selection x ++ [⟨Framework.withTag, s.arguments x⟩] ∧
    ∀ y, y ≠ x → SameOn s moved y := by
  intro marked moved
  obtain ⟨fields, others, last⟩ := foldl_moveArgument marked.2 (s.argumentRows x) marked.1
  have rest := foldl_moveArgument_rest marked.2 (s.argumentRows x) marked.1
  have reads : ∀ v, moved.read v = s.read v := fun v => by
    rw [show moved = _ from rest]
    apply read_of_tables <;> rfl
  have uses : ∀ y, (moved.directives .selection).usesOf y = (s.directives .selection).usesOf y ++
      if x = y then [(s.selectionDirectives.uses.nextId, ⟨x, Framework.withTag, p⟩)] else [] := by
    intro y
    rw [show moved = _ from rest]
    exact usesOf_addDirective s .selection ⟨x, Framework.withTag, p⟩ y
  have older : ∀ y, ((s.directives .selection).usesOf y).map (moved.nodeOf .selection) =
      s.nodes .selection y := by
    refine fun y => List.map_congr_left fun u hu => ?_
    have hle := le_issued (get?_of_mem (List.mem_filter.mp hu).1)
    have hlt := s.selectionDirectives.uses.issued_lt_nextId
    have hne : u.1 ≠ marked.2 := by
      change u.1 ≠ s.selectionDirectives.uses.nextId
      have hle : u.1 ≤ s.selectionDirectives.uses.issued := hle
      omega
    rw [nodeOf, nodeOf, others u.1 hne]
    simp only [reads]
    rfl
  have selections : moved.selections = s.selections := by rw [show moved = _ from rest]; rfl
  refine ⟨selections, ?_, ?_, fun y hy => ⟨by rw [selections], ?_, ?_⟩⟩
  · rw [arguments, List.map_eq_nil_iff]
    refine List.eq_nil_iff_forall_not_mem.mpr fun e he => ?_
    obtain ⟨he, hsel⟩ := List.mem_filter.mp he
    have hget := fields e.1
    rw [show ((s.argumentRows x).foldl (moveArgument marked.2) marked.1).fieldArguments.get? e.1 =
      some e.2 from get?_of_mem he] at hget
    split at hget
    · cases hget
    · next hout =>
      exact hout (List.mem_map_of_mem (List.mem_filter.mpr ⟨mem_of_get? hget.symm, hsel⟩))
  · have pairs := congrArg (List.map fun a : String × Int => (a.1, moved.read a.2)) last
    rw [show (marked.1.directives .selection).argumentsOf marked.2 = [] from
      hs.argumentsOf_eq_nil (s.directives .selection).uses.issued_lt_nextId] at pairs
    simp only [List.map_map, List.map_nil, List.nil_append] at pairs
    rw [nodes, uses, if_pos rfl, List.map_append, older, List.map_singleton, nodeOf]
    refine congrArg (fun as => s.nodes .selection x ++ [(⟨Framework.withTag, as⟩ : DirectiveNode)])
      (pairs.trans ?_)
    exact List.map_congr_left fun a _ => by simp only [Function.comp_apply, reads]
  · have same : moved.argumentRows y = s.argumentRows y := by
      refine argumentRows_foldl_moveArgument (fun a ha => ?_) (s.fieldArguments.ordered.filter _)
      obtain ⟨hm, hsel⟩ := List.mem_filter.mp ha
      exact ⟨get?_of_mem hm, of_decide_eq_true hsel ▸ Ne.symm hy⟩
    rw [arguments, same]
    simp only [reads]
    rfl
  · rw [nodes, uses, if_neg (Ne.symm hy), List.append_nil, older]

/-- A spread of a component field: the arguments stand on the last directive. -/
structure SpreadOn (s t : Store) (x : Int) (name : String) : Prop where
  row : t.selections.get? x = some ⟨name, none, .fragment, none⟩
  arguments : t.arguments x = []
  nodes : t.nodes .selection x = s.nodes .selection x ++
    if s.arguments x = [] then [] else [⟨Framework.withTag, s.arguments x⟩]

theorem spreadComponent_on (hs : s.Closed) {found : Int × ComponentField}
    (hx : s.selections.contains found.1) :
    SpreadOn s (s.spreadComponent found) found.1
      (Framework.componentFragment found.2.type found.2.field) ∧
    ∀ y, y ≠ found.1 → SameOn s (s.spreadComponent found) y := by
  obtain ⟨x, c⟩ := found
  let row : SelectionRow := ⟨Framework.componentFragment c.type c.field, none, .fragment, none⟩
  let changed : Store := { s with selections := s.selections.modify x fun _ => row }
  have closed : changed.Closed := hs.withSelections fun _ => contains_modify ..
  have here : changed.selections.get? x = some row := by
    obtain ⟨_, hrow⟩ := contains_iff.mp hx
    exact (get?_modify ..).trans (by rw [if_pos rfl, hrow]; rfl)
  have arguments : ∀ y, changed.arguments y = s.arguments y := by
    apply arguments_of_tables <;> rfl
  have nodes : ∀ y, changed.nodes .selection y = s.nodes .selection y := by
    apply nodes_of_tables <;> rfl
  have there : ∀ y, y ≠ x → SameOn s changed y := fun y hy =>
    ⟨(get?_modify ..).trans (if_neg hy), arguments y, nodes y⟩
  rw [spreadComponent]
  split
  · next hnil =>
    have none : s.arguments x = [] := List.map_eq_nil_iff.mpr hnil
    refine ⟨⟨here, (arguments x).trans none, ?_⟩, there⟩
    rw [if_pos none, List.append_nil]
    exact nodes x
  · next hsome =>
    have some : s.arguments x ≠ [] := fun h => hsome (List.map_eq_nil_iff.mp h)
    obtain ⟨kept, emptied, last, others⟩ := spreadArguments_on closed x (s.firstPosition x)
    refine ⟨⟨(congrArg (·.get? x) kept).trans here, emptied, ?_⟩,
      fun y hy => (there y hy).trans (others y hy)⟩
    rw [if_neg some, ← arguments, ← nodes]
    exact last

/-- The selections of a list become spreads, and all others stay. -/
theorem foldl_spreadComponent_on (found : List (Int × ComponentField)) (h : s.Ready G)
    (here : ∀ e ∈ found, s.selections.contains e.1) {name : String}
    (named : ∀ e ∈ found, e.1 = x → Framework.componentFragment e.2.type e.2.field = name) :
    ((∀ e ∈ found, e.1 ≠ x) → SameOn s (found.foldl spreadComponent s) x) ∧
      ((∃ e ∈ found, e.1 = x) → SpreadOn s (found.foldl spreadComponent s) x name) := by
  induction found generalizing s with
  | nil => exact ⟨fun _ => .refl s x, fun ⟨_, he, _⟩ => absurd he List.not_mem_nil⟩
  | cons e found ih =>
    obtain ⟨ready, present⟩ := spreadComponent_ready h (here e List.mem_cons_self)
    obtain ⟨spread, others⟩ := spreadComponent_on h.closed (here e List.mem_cons_self)
    obtain ⟨absent, listed⟩ := ih ready
      (fun e' he' => (present _).trans (here e' (List.mem_cons_of_mem e he')))
      fun e' he' => named e' (List.mem_cons_of_mem e he')
    refine ⟨fun hne => ?_, fun hx => ?_⟩
    · exact (others x (hne e List.mem_cons_self).symm).trans
        (absent fun e' he' => hne e' (List.mem_cons_of_mem e he'))
    · by_cases he : e.1 = x
      · -- Once its arguments are moved, a spread that comes up again stays as it is.
        subst he
        rw [named e List.mem_cons_self rfl] at spread
        by_cases hagain : ∃ e' ∈ found, e'.1 = e.1
        · have last := listed hagain
          refine ⟨last.row, last.arguments, last.nodes.trans ?_⟩
          rw [if_pos spread.arguments, List.append_nil]
          exact spread.nodes
        · have same := absent fun e' he' heq => hagain ⟨e', he', heq⟩
          exact ⟨same.row.trans spread.row, same.arguments.trans spread.arguments,
            same.nodes.trans spread.nodes⟩
      · have same := others x (Ne.symm he)
        obtain ⟨e', he', heq⟩ := hx
        have last := listed ⟨e', (List.mem_cons.mp he').resolve_left (fun h => he (h ▸ heq)), heq⟩
        refine ⟨last.row, last.arguments, ?_⟩
        rw [List.foldl_cons, last.nodes, same.arguments, same.nodes]

/-! ## All of it -/

/-- Up to the spreads of component fields a selection that has no pages stays as it is. -/
theorem generateListOperations_on (h : s.Ready NoBorrowers) (config : Config)
    (hx : s.selections.contains x) :
    let g := (s.preparePagination config).1.generateListOperations.1
    g.selections.get? x = s.selections.get? x ∧
    g.nodes .selection x = s.nodes .selection x ∧
    ((∀ l ∈ s.lists.rows, l.paginate ≠ .unpaged → l.listField ≠ x) →
      g.arguments x = s.arguments x) := by
  intro g
  have paging := preparePagination_paging config h
  have pages := preparePagination_pages config s
  have generated : Generated (s.preparePagination config).1.documents.issued (fun _ => True)
      (s.preparePagination config).1 g := generateListOperations_generated fun _ _ _ _ _ => trivial
  generalize (s.preparePagination config).1 = s₁ at *
  have reads : ∀ v, s.values.contains v → s₁.read v = s.read v := fun v hv =>
    pages.read h.toSound paging.ready.toSound hv
  obtain ⟨row, hrow⟩ := contains_iff.mp hx
  have row₁ : s₁.selections.get? x = some row := by
    rw [paging.rest]
    exact hrow
  refine ⟨?_, ?_, fun unpaged => ?_⟩
  · rw [generated.selections.get?_of_get? row₁, hrow]
  · have tables : g.nodes .selection x = s₁.nodes .selection x := by
      rw [generated.rest]
      apply nodes_of_tables <;> rfl
    rw [tables]
    exact h.closed.nodes_of_reads (by rw [paging.rest]; rfl) reads x
  · have tables : g.arguments x = s₁.arguments x := by
      rw [generated.rest]
      apply arguments_of_tables <;> rfl
    rw [tables, arguments, arguments, pages.arguments x fun l hl => ?_]
    · refine List.map_congr_left fun a ha => ?_
      have hm := mem_rows_of_get? (get?_of_mem (List.mem_filter.mp ha).1)
      rw [reads _ (h.closed.fieldArguments _ hm).2]
    · obtain ⟨hm, hpaged⟩ := List.mem_filter.mp hl
      exact unpaged l hm (of_decide_eq_true hpaged)

end

end Store

namespace Project

open Store

variable {p : Project} {s₀ s : Store}

theorem analyse_paged (prepared : p.prepare = .ok s₀) (analysed : p.analyse s₀ = .ok (s, [])) :
    s.Paged := by
  obtain ⟨_, _, s₁, s₂, listed, swept, ruled⟩ := analyse_clean analysed
  have none_listed : ∀ l ∈ (s₀.loadSources.1.retypeScalars
      p.config.runtimeScalars).1.discoverComponentFields.1.lists.rows, l.paginate = .unpaged := by
    rw [lists_of_prepare prepared]
    exact fun l hl => absurd hl List.not_mem_nil
  have fresh : s₁.Paged := fun l hl hpaged =>
    absurd (discoverLists_lists none_listed listed l hl) hpaged
  have keeps := Rule.keeps_of_writing keeps_paged
  exact Rule.runAll_induction (fun r hr => keeps r (List.mem_append_right _ hr))
    (Rule.runAll_induction (fun r hr => keeps r (List.mem_append_left _ hr)) fresh swept) ruled

theorem analyse_listsFields (prepared : p.prepare = .ok s₀)
    (analysed : p.analyse s₀ = .ok (s, [])) : s.ListsFields := by
  obtain ⟨_, _, s₁, s₂, listed, swept, ruled⟩ := analyse_clean analysed
  have fresh : s₁.ListsFields := discoverLists_listsFields (lists_of_prepare prepared) listed
  exact (Rule.suites_induction (fun _ _ _ h hc => h.checkPaging hc) fresh swept ruled).2

/-- The store in which component fields become spreads. -/
def generated (p : Project) (s : Store) : Store :=
  (s.preparePagination p.config).1.generateListOperations.1

theorem rewrite_eq (p : Project) (s : Store) :
    p.rewrite s = (p.generated s).spreadComponentFields.1 := rfl

theorem generated_ready (ready : s.Ready NoBorrowers) :
    (p.generated s).Ready (Beyond s.documents.issued) := by
  have paging := preparePagination_paging p.config ready
  have generating := generateListOperations_generating paging.ready
  have documents : (s.preparePagination p.config).1.documents = s.documents := by rw [paging.rest]
  rw [documents] at generating
  exact generating.ready

/-- What list operations add to a store, pagination apart. -/
theorem generated_grows (ready : s.Ready NoBorrowers) :
    Table.Grows (fun _ => True) s.documents (p.generated s).documents ∧
    Table.Grows (Borrowed s.documents.issued s) s.placements (p.generated s).placements ∧
    (p.generated s).schema.fields = s.schema.fields ∧
    (p.generated s).componentFields = s.componentFields := by
  have paging := preparePagination_paging p.config ready
  have generated : Generated (s.preparePagination p.config).1.documents.issued (fun _ => True)
      (s.preparePagination p.config).1 (p.generated s) :=
    generateListOperations_generated fun _ _ _ _ _ => trivial
  generalize p.generated s = g at *
  have fields := generated.fields
  have documents := generated.documents
  have placements := generated.borrowed
  generalize (s.preparePagination p.config).1 = s₁ at *
  have components : g.componentFields = s₁.componentFields := by rw [generated.rest]
  rw [paging.rest] at fields documents placements components
  refine ⟨documents, placements.mono fun q hq => ?_, fields, components⟩
  exact ⟨hq.document, hq.child, hq.parent⟩

theorem spreads_rewrite (ready : s.Ready NoBorrowers) :
    Spreads (p.generated s) (p.rewrite s) :=
  spreadComponentFields_spreads (generated_ready ready)

/-- Only pagination touches variables, values and the directives of documents. -/
theorem tables_rewrite (ready : s.Ready NoBorrowers) :
    (p.rewrite s).declarations = (s.preparePagination p.config).1.declarations ∧
    (p.rewrite s).documentDirectives = (s.preparePagination p.config).1.documentDirectives ∧
    (p.rewrite s).values = (s.preparePagination p.config).1.values ∧
    (p.rewrite s).valueLinks = (s.preparePagination p.config).1.valueLinks := by
  have generated : Generated (s.preparePagination p.config).1.documents.issued (fun _ => True)
      (s.preparePagination p.config).1 (p.generated s) :=
    generateListOperations_generated fun _ _ _ _ _ => trivial
  have spread := spreads_rewrite (p := p) ready
  generalize p.generated s = g at *
  generalize (s.preparePagination p.config).1 = s₁ at *
  rw [spread.rest, generated.rest]
  exact ⟨rfl, rfl, rfl, rfl⟩

theorem declarations_rewrite (ready : s.Ready NoBorrowers) :
    (p.rewrite s).declarations = (s.preparePagination p.config).1.declarations :=
  (tables_rewrite ready).1

theorem read_rewrite (ready : s.Ready NoBorrowers) {v : Int} (hv : s.values.contains v) :
    (p.rewrite s).read v = s.read v := by
  obtain ⟨_, _, values, links⟩ := tables_rewrite (p := p) ready
  rw [read_of_tables values links]
  exact (preparePagination_pages p.config s).read ready.toSound
    (preparePagination_paging p.config ready).ready.toSound hv

end Project

end GraphDoc
