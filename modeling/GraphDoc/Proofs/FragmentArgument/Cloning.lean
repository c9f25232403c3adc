import GraphDoc.Proofs.FragmentArgument.Copying

/-!
# Cloning a fragment

`Store.cloneFragment` gives a sound store in which the clone shows the tree of the fragment, with
selections of its own wherever something stands on them. Each value of the fragment has one owner,
so its copy gets one owner as well: the copies whose owners are not copied yet wait without one.
-/

set_option autoImplicit false

namespace GraphDoc

open Table

namespace Store

variable {s t t' : Store} {G : Int → Prop} {source clone : Int}

/-! ## Values -/

/-- The value rows of a document, in order. -/
def valuesIn (s : Store) (document : Int) : List (Int × ValueRow) :=
  s.values.entries.filter (·.2.document? = some document)

theorem mem_valuesIn {e : Int × ValueRow} :
    e ∈ s.valuesIn source ↔ s.values.get? e.1 = some e.2 ∧ e.2.document? = some source := by
  rw [valuesIn, List.mem_filter, get?_eq_some_iff]
  simp

theorem mem_valuesIn_ids {v : Int} :
    v ∈ (s.valuesIn source).map (·.1) ↔ s.documentOf v = some source := by
  rw [documentOf, Option.bind_eq_some_iff]
  constructor
  · intro h
    obtain ⟨e, he, rfl⟩ := List.mem_map.mp h
    exact ⟨e.2, mem_valuesIn.mp he⟩
  · rintro ⟨row, hrow⟩
    exact List.mem_map.mpr ⟨(v, row), mem_valuesIn.mpr hrow, rfl⟩

/-- The value rows of `owned` were copied to `target`. -/
structure RowsCopied (G : Int → Prop) (s : Store) (target : Int) (owned : List (Int × ValueRow))
    (t : Store) (m : CopyMap) : Prop where
  sound : t.Sound G
  copying : Copying s t
  same : t = { s with values := t.values }
  map : m.Copies (owned.map (·.1)) s.values.issued t.values.issued
  rows : ∀ e ∈ m, ∃ row, (e.1, row) ∈ owned ∧
    t.values.get? e.2 = some { row with document? := some target }

theorem copyValueRows (hs : s.Sound G) {target : Int}
    (ht : s.documents.contains target) (owned : List (Int × ValueRow)) :
    RowsCopied G s target owned (owned.foldl (copyValueRow target) (s, [])).1
      (owned.foldl (copyValueRow target) (s, [])).2 := by
  refine foldl_snoc_induction (P := fun pre (r : Store × CopyMap) =>
    RowsCopied G s target pre r.1 r.2) owned
    ⟨hs, .refl s, rfl, .nil _ _, fun _ he => absurd he List.not_mem_nil⟩ fun pre e post _ r hr => ?_
  obtain ⟨t, m⟩ := r
  change RowsCopied G s target pre t m at hr
  have hle := hr.copying.values.issued_le
  have hd : t.documents.contains target := by
    rw [hr.same]
    exact ht
  refine ⟨hr.sound.addValueRow fun d he => ?_, hr.copying.addValueRow _, ?_, ?_, ?_⟩
  · cases he
    exact hd
  · simp only [copyValueRow, addValueRow]
    conv_lhs => rw [hr.same]
  · rw [List.map_append]
    exact hr.map.snoc hle e.1
  · intro e' he'
    rcases List.mem_append.mp he' with he' | he'
    · obtain ⟨row, hrow, hget⟩ := hr.rows e' he'
      exact ⟨row, List.mem_append_left _ hrow, get?_push_of_get? hget⟩
    · obtain rfl := List.mem_singleton.mp he'
      exact ⟨e.2, List.mem_append_right _ List.mem_cons_self, get?_push_nextId ..⟩

theorem RowsCopied.get? {m : CopyMap} (h : RowsCopied G s clone (s.valuesIn source) t m) {v : Int}
    {row : ValueRow} (hv : s.values.get? v = some row) (hd : row.document? = some source) :
    t.values.get? (m.image v) = some { row with document? := some clone } := by
  have hm : v ∈ (s.valuesIn source).map (·.1) :=
    List.mem_map.mpr ⟨(v, row), mem_valuesIn.mpr ⟨hv, hd⟩, rfl⟩
  obtain ⟨row', hrow, hget⟩ := h.rows _ (h.map.mem hm)
  cases hv.symm.trans (mem_valuesIn.mp hrow).1
  exact hget

theorem Sound.nodup_links (h : s.Sound G) : (s.valueLinks.rows.map (·.value)).Nodup := by
  rw [rows, List.map_map]
  refine List.pairwise_map.mpr (s.valueLinks.ordered.imp_of_mem fun {a b} ha hb hlt he => ?_)
  have hone := h.single (.child a.1) (.child b.1) a.2.value
    (Option.map_eq_some_iff.mpr ⟨a.2, get?_of_mem ha, rfl⟩)
    (Option.map_eq_some_iff.mpr ⟨b.2, get?_of_mem hb, he.symm⟩)
  have : a.1 = b.1 := Owner.child.inj hone
  omega

def copiedLink (m : CopyMap) (l : ValueLink) : ValueLink :=
  { l with parent := m.image l.parent, value := m.image l.value }

/-- The links below the values of a document. -/
def linksIn (s : Store) (document : Int) : List ValueLink :=
  s.valueLinks.rows.filter fun l => s.documentOf l.parent = some document

/-- The values of `source` were copied to `clone`, and so were the first links below them. -/
structure LinksCopied (G : Int → Prop) (s : Store) (m : CopyMap) (t₁ : Store)
    (links : List ValueLink) (t : Store) : Prop where
  sound : t.Sound G
  copying : Copying s t
  same : t = { t₁ with valueLinks := t.valueLinks }
  rows : t.valueLinks.rows = s.valueLinks.rows ++ links.map (copiedLink m)
  owned : ∀ o v, t.owns o = some v → s.owns o = some v ∨
    o.IsChild ∧ ∃ l ∈ links, v = m.image l.value

theorem copyLinks {m : CopyMap} {t₁ : Store} (hs : s.Sound G)
    (h : RowsCopied G s clone (s.valuesIn source) t₁ m) :
    LinksCopied G s m t₁ (s.linksIn source) ((s.linksIn source).foldl (copyLink m) t₁) := by
  have hlinks : t₁.valueLinks = s.valueLinks := by rw [h.same]
  refine foldl_snoc_induction (P := fun pre t => LinksCopied G s m t₁ pre t) (s.linksIn source)
    ⟨h.sound, h.copying, rfl, by simp [hlinks], fun o v ho => .inl ?_⟩ fun pre l post hl t ht => ?_
  · rw [h.same] at ho
    cases o <;> exact ho
  · have hm : l ∈ s.linksIn source := by
      rw [hl]
      exact List.mem_append_right _ List.mem_cons_self
    obtain ⟨hrow, hparent⟩ := List.mem_filter.mp hm
    have hparent : s.documentOf l.parent = some source := of_decide_eq_true hparent
    have hvalue : s.documentOf l.value = some source := (hs.together l hrow).trans hparent
    obtain ⟨p, hp, hpd⟩ := Option.bind_eq_some_iff.mp hparent
    obtain ⟨v, hv, hvd⟩ := Option.bind_eq_some_iff.mp hvalue
    have hp' := h.get? hp hpd
    have hv' := h.get? hv hvd
    have hpm := mem_valuesIn_ids.mpr hparent
    have hvm := mem_valuesIn_ids.mpr hvalue
    have hvalues : t.values = t₁.values := by rw [ht.same]
    have ascending : ((s.valuesIn source).map (·.1)).Pairwise (· < ·) :=
      List.pairwise_map.mpr (s.values.ordered.filter _)
    have hnodup : ((pre ++ l :: post).map (·.value)).Nodup := by
      rw [← hl]
      exact hs.nodup_links.sublist (List.filter_sublist.map _)
    have free : t.Unowned (m.image l.value) := by
      intro o ho
      rcases ht.owned o _ ho with ho | ⟨_, l', hl', he⟩
      · have := le_issued_of_contains (hs.closed.contains_of_owns ho)
        have := (h.map.image_fresh hvm).1
        omega
      · have hm' : l' ∈ s.linksIn source := by
          rw [hl]
          exact List.mem_append_left _ hl'
        obtain ⟨hrow', hparent'⟩ := List.mem_filter.mp hm'
        have hvalue' : s.documentOf l'.value = some source :=
          (hs.together l' hrow').trans (of_decide_eq_true hparent')
        obtain ⟨v', hv'', _⟩ := Option.bind_eq_some_iff.mp hvalue'
        have heq := h.map.image_inj (le_issued hv) (le_issued hv'') he
        rw [List.map_append, List.map_cons, List.nodup_append] at hnodup
        exact hnodup.2.2 l'.value (List.mem_map_of_mem hl') l.value List.mem_cons_self heq.symm
    refine ⟨?_, ?_, ?_, ?_, ?_⟩
    · refine ht.sound.addValueLink (hvalues ▸ hp') (hvalues ▸ contains_of_get? hv') free ?_ ?_ ?_
      · exact h.map.image_lt ascending hpm hvm (hs.descends l hrow)
      · exact hs.shaped l hrow p hp
      · rw [documentOf, hvalues, hv']
        rfl
    · exact ht.copying.addValueLink (h.map.image_fresh hpm).1 (h.map.image_fresh hvm).1
    · simp only [copyLink, addValueLink]
      conv_lhs => rw [ht.same]
    · rw [copyLink, addValueLink, rows_push, ht.rows]
      simp [copiedLink]
    · intro o w ho
      rw [copyLink, owns_addValueLink] at ho
      split at ho
      · next he =>
        cases ho
        exact .inr ⟨he ▸ trivial, l, by simp, rfl⟩
      · rcases ht.owned o w ho with ho | ⟨hc, l', hl', he⟩
        · exact .inl ho
        · exact .inr ⟨hc, l', List.mem_append_left _ hl', he⟩

theorem map_linksOf (s : Store) (id : Int) :
    (s.linksOf id).map (·.2) = s.valueLinks.rows.filter (·.parent = id) := by
  rw [← List.map_id' (s.valueLinks.rows.filter _)]
  exact s.valueLinks.map_filter_entries (fun l => decide (l.parent = id)) fun l => l

/-- The copies read as the values that they were made of. -/
theorem LinksCopied.read {m : CopyMap} {t₁ : Store} (hs : s.Sound G)
    (h : RowsCopied G s clone (s.valuesIn source) t₁ m)
    (hl : LinksCopied G s m t₁ (s.linksIn source) t) {v : Int}
    (hv : s.documentOf v = some source) : t.read (m.image v) = s.read v := by
  have hvalues : t.values = t₁.values := by rw [hl.same]
  refine hs.read_sim hl.sound
    (R := fun a b => s.documentOf a = some source ∧ b = m.image a) ?_ ⟨hv, rfl⟩
  rintro a _ ⟨ha, rfl⟩
  obtain ⟨row, hrow, hd⟩ := Option.bind_eq_some_iff.mp ha
  refine ⟨row, { row with document? := some clone }, hrow, hvalues ▸ h.get? hrow hd, rfl, rfl, ?_⟩
  have hle := le_issued hrow
  -- The old links are below old values, and no other value has the same copy.
  have links : (t.linksOf (m.image a)).map (·.2) = (s.linksOf a).map fun l => copiedLink m l.2 := by
    have hfresh := (h.map.image_fresh (mem_valuesIn_ids.mpr ha)).1
    have hold : s.valueLinks.rows.filter (·.parent = m.image a) = [] := by
      refine List.filter_eq_nil_iff.mpr fun l hm => ?_
      have := le_issued_of_contains (hs.closed.valueLinks l hm).1
      simp only [decide_eq_true_eq]
      omega
    have hnew : (s.linksIn source).filter (fun l => decide ((copiedLink m l).parent = m.image a)) =
        s.valueLinks.rows.filter (·.parent = a) := by
      rw [linksIn, List.filter_filter]
      refine List.filter_congr fun l hm => ?_
      have hlp := le_issued_of_contains (hs.closed.valueLinks l hm).1
      rw [Bool.eq_iff_iff]
      simp only [Bool.and_eq_true, decide_eq_true_eq]
      constructor
      · exact fun he => h.map.image_inj hlp hle he.1
      · rintro rfl
        exact ⟨rfl, ha⟩
    rw [map_linksOf, hl.rows, List.filter_append, hold, List.nil_append, List.filter_map,
      Function.comp_def, hnew, ← map_linksOf, List.map_map]
    rfl
  refine ((List.forall₂_and_left _ _).mpr ⟨fun l hm => hm, forall₂_of_map_eq_map links⟩).imp ?_
  rintro l l' ⟨hm, he⟩
  rw [he]
  refine ⟨rfl, ?_, rfl⟩
  rw [hs.together _ (mem_rows_of_mem_linksOf hm), (mem_linksOf.mp hm).2, ha]

/-! ## Directives -/

/-- The directives with one of them copied to another owner. -/
def copiedTables (T : DirectiveTables) (m : CopyMap) (owner : Int) (use : Int × DirectiveUse) :
    DirectiveTables where
  uses := T.uses.push { use.2 with owner := owner }
  arguments := ((T.argumentsOf use.1).map fun a =>
    { a.2 with owner := T.uses.nextId, value := m.image a.2.value }).foldl Table.push T.arguments

theorem foldl_addDirectiveArgument (site : Site) (rows : List DirectiveArgument) (t : Store) :
    rows.foldl (fun t row => (t.addDirectiveArgument site row).1) t =
      t.setDirectives site { t.directives site with
        arguments := rows.foldl push (t.directives site).arguments } := by
  induction rows generalizing t with
  | nil => cases site <;> rfl
  | cons row rows ih =>
    rw [List.foldl_cons, ih, addDirectiveArgument, directives_setDirectives, if_pos rfl]
    cases site <;> rfl

theorem copyDirective_eq (site : Site) (m : CopyMap) (owner : Int) (t : Store)
    (use : Int × DirectiveUse) : copyDirective site m owner t use =
      t.setDirectives site (copiedTables (t.directives site) m owner use) := by
  change ((t.directives site).argumentsOf use.1).foldl
    (copyDirectiveArgument site m (t.directives site).uses.nextId)
    (t.addDirective site { use.2 with owner := owner }).1 = _
  have hfold : ∀ (as : List (Int × DirectiveArgument)) (u : Int) (t : Store),
      as.foldl (copyDirectiveArgument site m u) t =
        (as.map fun a => { a.2 with owner := u, value := m.image a.2.value }).foldl
          (fun t row => (t.addDirectiveArgument site row).1) t := by
    intro as u t
    rw [List.foldl_map]
    rfl
  rw [hfold, foldl_addDirectiveArgument]
  cases site <;> rfl

theorem usesOf_copiedTables (T : DirectiveTables) (m : CopyMap) (owner : Int)
    (use : Int × DirectiveUse) (x : Int) : (copiedTables T m owner use).usesOf x = T.usesOf x ++
      if owner = x then [(T.uses.nextId, { use.2 with owner := owner })] else [] := by
  simp only [copiedTables, DirectiveTables.usesOf, entries_push, List.filter_append]
  by_cases h : owner = x <;> simp [h]

theorem argumentsOf_copiedTables (T : DirectiveTables) (m : CopyMap) (owner : Int)
    (use : Int × DirectiveUse) (r : Int → Value) (u : Int) :
    ((copiedTables T m owner use).argumentsOf u).map (fun a => (a.2.name, r a.2.value)) =
      (T.argumentsOf u).map (fun a => (a.2.name, r a.2.value)) ++
        if T.uses.nextId = u then (T.argumentsOf use.1).map fun a =>
          (a.2.name, r (m.image a.2.value)) else [] := by
  have view : ∀ T : DirectiveTables, (T.argumentsOf u).map (fun a => (a.2.name, r a.2.value)) =
      (T.arguments.rows.filter (·.owner = u)).map fun a => (a.name, r a.value) := fun T =>
    T.arguments.map_filter_entries (fun a => decide (a.owner = u)) fun a => (a.name, r a.value)
  rw [view, view]
  simp only [copiedTables, rows_foldl_push, List.filter_append, List.map_append]
  congr 1
  by_cases hu : T.uses.nextId = u <;> simp [hu, List.filter_map, Function.comp_def]

theorem argumentsOf_nextId (ht : t.Closed) (site : Site) :
    (t.directives site).argumentsOf (t.directives site).uses.nextId = [] := by
  refine List.filter_eq_nil_iff.mpr fun a ha => ?_
  have hm := mem_rows_of_get? (get?_of_mem ha)
  have := le_issued_of_contains ((ht.directives site).arguments a.2 hm).1
  have := (t.directives site).uses.issued_lt_nextId
  simp only [decide_eq_true_eq]
  omega

theorem nodes_copyDirective (ht : t.Closed) (site : Site) (m : CopyMap) (owner : Int)
    (use : Int × DirectiveUse) (x : Int) :
    (copyDirective site m owner t use).nodes site x = t.nodes site x ++
      if owner = x then [⟨use.2.name, ((t.directives site).argumentsOf use.1).map fun a =>
        (a.2.name, t.read (m.image a.2.value))⟩] else [] := by
  have hdir : (copyDirective site m owner t use).directives site =
      copiedTables (t.directives site) m owner use := by
    rw [copyDirective_eq, directives_setDirectives, if_pos rfl]
  have hread : ∀ id, (copyDirective site m owner t use).read id = t.read id := by
    intro id
    rw [copyDirective_eq, read_setDirectives]
  have hnode : ∀ u, (copyDirective site m owner t use).nodeOf site u = ⟨u.2.name,
      ((t.directives site).argumentsOf u.1).map (fun a => (a.2.name, t.read a.2.value)) ++
        if (t.directives site).uses.nextId = u.1 then
          ((t.directives site).argumentsOf use.1).map fun a =>
            (a.2.name, t.read (m.image a.2.value)) else []⟩ := by
    intro u
    simp only [nodeOf, hdir, hread, argumentsOf_copiedTables]
  rw [nodes, hdir, usesOf_copiedTables, List.map_append]
  congr 1
  · refine List.map_congr_left fun u hu => ?_
    have hle := le_issued (get?_of_mem (List.mem_filter.mp hu).1)
    have hlt := (t.directives site).uses.issued_lt_nextId
    rw [hnode, if_neg (by omega), List.append_nil, nodeOf]
  · split
    · rw [List.map_singleton, hnode, if_pos rfl, argumentsOf_nextId ht]
      rfl
    · rfl

/-! ## Owners -/

/-- A clone under way: the values of `source` have copies, which belong to `clone`, and those whose
owners are not among the `done` ones have no owner yet. -/
structure Cloning (G : Int → Prop) (s : Store) (source clone : Int) (m : CopyMap)
    (done : Owner → Prop) (t : Store) : Prop where
  sound : t.Sound G
  copying : Copying s t
  copied : ∀ v, s.documentOf v = some source → t.values.contains (m.image v) = true ∧
    t.documentOf (m.image v) = some clone ∧ t.read (m.image v) = s.read v
  owned : ∀ o v, t.owns o = some v → s.owns o = some v ∨ t.documentOf v = some clone
  waits : ∀ o v, s.owns o = some v → s.documentOf v = some source → ¬ o.IsChild → ¬ done o →
    t.Unowned (m.image v)
  inherits : ∀ site id v, t.owns (.directive site id) = some v →
    ∃ id₀ v₀, s.owns (.directive site id₀) = some v₀ ∧ t.read v = s.read v₀

variable {m : CopyMap} {done : Owner → Prop}

theorem Cloning.next (h : Cloning G s source clone m done t) {n : Nat}
    (hm : m.Copies ((s.valuesIn source).map (·.1)) s.values.issued n) (hs : s.Sound G)
    (sound : t'.Sound G) (copying : Copying s t') (hv : t'.values = t.values)
    (hl : t'.valueLinks = t.valueLinks) {done' : Owner → Prop} (hd : ∀ o, done o → done' o)
    (owned : ∀ o v, t'.owns o = some v → t.owns o = some v ∨ ∃ o₀ v₀, s.owns o₀ = some v₀ ∧
      s.documentOf v₀ = some source ∧ done' o₀ ∧ v = m.image v₀ ∧
      ∀ site id, o = .directive site id → ∃ id₀, o₀ = .directive site id₀) :
    Cloning G s source clone m done' t' := by
  have hdoc : ∀ v, t'.documentOf v = t.documentOf v := fun v => by rw [documentOf, documentOf, hv]
  refine ⟨sound, copying, fun v hsource => ?_, fun o v ho => ?_, ?_, fun site id v ho => ?_⟩
  · rw [hv, hdoc, read_of_tables hv hl]
    exact h.copied v hsource
  · rw [hdoc]
    rcases owned o v ho with ho | ⟨_, v₀, _, hsource, _, rfl, _⟩
    · exact h.owned o v ho
    · exact .inr (h.copied v₀ hsource).2.1
  · intro o v ho hsource hchild hnot o' ho'
    rcases owned o' _ ho' with ho' | ⟨o₀, v₀, h₀, hsource₀, hdone, he, _⟩
    · exact h.waits o v ho hsource hchild (fun hx => hnot (hd o hx)) o' ho'
    · have hle := le_issued_of_contains (hs.closed.contains_of_owns ho)
      have hle₀ := le_issued_of_contains (hs.closed.contains_of_owns h₀)
      have hsame := hm.image_inj hle hle₀ he
      subst hsame
      exact hnot (hs.single o₀ o v h₀ ho ▸ hdone)
  · rw [read_of_tables hv hl]
    rcases owned _ v ho with ho | ⟨o₀, v₀, h₀, hsource, _, rfl, hkind⟩
    · exact h.inherits site id v ho
    · obtain ⟨id₀, rfl⟩ := hkind site id rfl
      exact ⟨id₀, v₀, h₀, (h.copied v₀ hsource).2.2⟩

/-- Arguments are met once each, so the copy of the next one's value still waits. `owner` is the
kind of owner that they are. -/
theorem Cloning.unowned_next {owner : Int → Owner} (inj : ∀ i j, owner i = owner j → i = j)
    {α : Type} {as pre post : List (Int × α)} {a : Int × α}
    (h : Cloning G s source clone m (fun o => done o ∨ ∃ b ∈ pre, o = owner b.1) t)
    (hsplit : as = pre ++ a :: post) (distinct : as.Pairwise fun a b => a.1 < b.1) {v : Int}
    (howns : s.owns (owner a.1) = some v) (hsource : s.documentOf v = some source)
    (hchild : ¬ (owner a.1).IsChild) (hnot : ¬ done (owner a.1)) : t.Unowned (m.image v) := by
  refine h.waits _ _ howns hsource hchild ?_
  rintro (hd | ⟨b, hb, he⟩)
  · exact hnot hd
  · rw [hsplit, List.pairwise_append] at distinct
    have hlt := distinct.2.2 b hb a List.mem_cons_self
    have := inj _ _ he
    omega

section

variable {n : Nat} (hm : m.Copies ((s.valuesIn source).map (·.1)) s.values.issued n)
  (hs : s.Sound G)
include hm hs

theorem Cloning.copyDirectiveArguments {site : Site} (hsite : site ≠ .declaration)
    (h : Cloning G s source clone m done t)
    {u : Int} {use : DirectiveUse} (hu : (t.directives site).uses.get? u = some use)
    (hnew : ((s.directives site).uses.issued : Int) < u)
    (hh : ∀ v, s.documentOf v = some source → t.Houses G site use.owner (m.image v))
    (as : List (Int × DirectiveArgument))
    (has : ∀ a ∈ as, (s.directives site).arguments.get? a.1 = some a.2 ∧
      s.documentOf a.2.value = some source ∧ ¬ done (.directive site a.1))
    (distinct : as.Pairwise fun a b => a.1 < b.1) :
    Cloning G s source clone m (fun o => done o ∨ ∃ a ∈ as, o = .directive site a.1)
      (as.foldl (copyDirectiveArgument site m u) t) := by
  have key := foldl_snoc_induction (f := copyDirectiveArgument site m u) (b := t)
    (P := fun pre t' =>
      Cloning G s source clone m (fun o => done o ∨ ∃ a ∈ pre, o = .directive site a.1) t' ∧
      (t'.directives site).uses = (t.directives site).uses ∧ t'.values = t.values ∧
      t'.placements = t.placements) as ?_ ?_
  · exact key.1
  · refine ⟨h.next hm hs h.sound h.copying rfl rfl (fun o => .inl) fun o v ho => .inl ho,
      rfl, rfl, rfl⟩
  · rintro pre a post hsplit t' ⟨h', huses, hvalues, hplacements⟩
    obtain ⟨hget, hsource, hnot⟩ := has a (by simp [hsplit])
    have owner : s.owns (.directive site a.1) = some a.2.value :=
      Option.map_eq_some_iff.mpr ⟨a.2, hget, rfl⟩
    have free := h'.unowned_next (fun _ _ he => (Owner.directive.inj he).2) hsplit distinct owner
      hsource (fun hc => hc) hnot
    have hcopy := h'.copied _ hsource
    have hhouse : t'.Houses G site use.owner (m.image a.2.value) :=
      (hh _ hsource).congr (by rw [documentOf, documentOf, hvalues]) hplacements
    have sound : (copyDirectiveArgument site m u t' a).Sound G :=
      h'.sound.addDirectiveArgument (huses.symm ▸ hu) hcopy.1 free hhouse
    have hfresh := (hm.image_fresh (mem_valuesIn_ids.mpr hsource)).1
    have copying : Copying s (copyDirectiveArgument site m u t' a) :=
      h'.copying.setDirectives hsite .refl (.push .refl ⟨hnew, hfresh⟩)
    refine ⟨h'.next hm hs sound copying ?_ ?_ ?_ ?_, ?_, ?_, ?_⟩
    · cases site <;> rfl
    · cases site <;> rfl
    · rintro o (hd | ⟨b, hb, he⟩)
      · exact .inl hd
      · exact .inr ⟨b, List.mem_append_left _ hb, he⟩
    · intro o v ho
      rw [copyDirectiveArgument, owns_addDirectiveArgument] at ho
      split at ho
      · next he =>
        cases ho
        refine .inr ⟨_, _, owner, hsource, .inr ⟨a, by simp, rfl⟩, rfl, fun site' id he' => ?_⟩
        cases he.symm.trans he'
        exact ⟨a.1, rfl⟩
      · exact .inl ho
    · rw [← huses]
      simp [copyDirectiveArgument, addDirectiveArgument]
    · rw [← hvalues]
      cases site <;> rfl
    · rw [← hplacements]
      cases site <;> rfl

theorem Cloning.copyDirective {site : Site} (hsite : site ≠ .declaration)
    (h : Cloning G s source clone m done t) {owner : Int}
    (ho : t.isOwner site owner) (hnew : (s.lastOwner site : Int) < owner)
    (hh : ∀ v, s.documentOf v = some source → t.Houses G site owner (m.image v))
    {use : Int × DirectiveUse} (huse : (s.directives site).uses.get? use.1 = some use.2)
    (has : ∀ a ∈ (s.directives site).argumentsOf use.1, s.documentOf a.2.value = some source ∧
      ¬ done (.directive site a.1)) :
    Cloning G s source clone m
      (fun o => done o ∨ ∃ a ∈ (s.directives site).argumentsOf use.1, o = .directive site a.1)
      (copyDirective site m owner t use) := by
  have sound : (t.addDirective site { use.2 with owner := owner }).1.Sound G :=
    h.sound.addDirective ho
  have copying : Copying s (t.addDirective site { use.2 with owner := owner }).1 :=
    h.copying.setDirectives hsite (.push .refl hnew) .refl
  have marked : Cloning G s source clone m done
      (t.addDirective site { use.2 with owner := owner }).1 :=
    h.next hm hs sound copying (by cases site <;> rfl) (by cases site <;> rfl) (fun _ hd => hd)
      fun o v hov => .inl ((owns_addDirective ..).symm.trans hov)
  have hget : ((t.addDirective site { use.2 with owner := owner }).1.directives site).uses.get?
      (t.directives site).uses.nextId = some { use.2 with owner := owner } := by
    simp [addDirective]
  have hle := (h.copying.uses site).issued_le
  have hlt := (t.directives site).uses.issued_lt_nextId
  have hargs := h.copying.argumentsOf (le_issued huse)
  have filled := marked.copyDirectiveArguments hm hs hsite hget (by omega)
    (fun v hv => (hh v hv).congr (by cases site <;> rfl) (by cases site <;> rfl))
    ((s.directives site).argumentsOf use.1) (fun a ha => ?_) ?_
  · rw [Store.copyDirective, hargs]
    exact filled
  · exact ⟨get?_of_mem (List.mem_filter.mp ha).1, has a ha⟩
  · exact (s.directives site).arguments.ordered.filter _

/-- All directives of `uses` are copied to one owner. -/
theorem Cloning.copyDirectives {site : Site} (hsite : site ≠ .declaration)
    (h : Cloning G s source clone m done t) {owner : Int}
    (ho : t.isOwner site owner) (hnew : (s.lastOwner site : Int) < owner)
    (hh : ∀ v, s.documentOf v = some source → t.Houses G site owner (m.image v))
    (uses : List (Int × DirectiveUse))
    (huses : ∀ use ∈ uses, (s.directives site).uses.get? use.1 = some use.2 ∧
      ∀ a ∈ (s.directives site).argumentsOf use.1, s.documentOf a.2.value = some source ∧
        ¬ done (.directive site a.1))
    (distinct : uses.Pairwise fun a b => a.1 < b.1) :
    let t' := uses.foldl (Store.copyDirective site m owner) t
    Cloning G s source clone m (fun o => done o ∨ ∃ use ∈ uses,
      ∃ a ∈ (s.directives site).argumentsOf use.1, o = .directive site a.1) t' ∧
    t' = t.setDirectives site (t'.directives site) ∧
    ∀ x, t'.nodes site x = t.nodes site x ++
      if owner = x then uses.map (s.nodeOf site) else [] := by
  refine foldl_snoc_induction (f := Store.copyDirective site m owner) (b := t)
    (P := fun pre t' =>
      Cloning G s source clone m (fun o => done o ∨ ∃ use ∈ pre,
        ∃ a ∈ (s.directives site).argumentsOf use.1, o = .directive site a.1) t' ∧
      t' = t.setDirectives site (t'.directives site) ∧
      ∀ x, t'.nodes site x = t.nodes site x ++
        if owner = x then pre.map (s.nodeOf site) else []) uses ?_ ?_
  · refine ⟨h.next hm hs h.sound h.copying rfl rfl (fun o => .inl) fun o v hov => .inl hov, ?_, ?_⟩
    · cases site <;> rfl
    · simp
  · rintro pre use post hsplit t' ⟨h', same, nodes⟩
    obtain ⟨hget, has⟩ := huses use (by simp [hsplit])
    have ho' : t'.isOwner site owner := by
      rw [same, isOwner_setDirectives]
      exact ho
    have hh' : ∀ v, s.documentOf v = some source → t'.Houses G site owner (m.image v) := by
      intro v hv
      rw [same]
      exact (hh v hv).congr (by cases site <;> rfl) (by cases site <;> rfl)
    -- An argument stands on one directive only, and each directive is met once.
    have waiting : ∀ a ∈ (s.directives site).argumentsOf use.1, s.documentOf a.2.value = some source ∧
        ¬ (done (.directive site a.1) ∨ ∃ use ∈ pre, ∃ b ∈ (s.directives site).argumentsOf use.1,
          Owner.directive site a.1 = .directive site b.1) := by
      intro a ha
      refine ⟨(has a ha).1, ?_⟩
      rintro (hd | ⟨use', huse', b, hb, he⟩)
      · exact (has a ha).2 hd
      · obtain ⟨ha, hau⟩ := List.mem_filter.mp ha
        obtain ⟨hb, hbu⟩ := List.mem_filter.mp hb
        have hid : a.1 = b.1 := (Owner.directive.inj he).2
        have hrow : a.2 = b.2 := by
          have := (get?_of_mem ha).symm.trans (hid ▸ get?_of_mem hb)
          exact Option.some.inj this
        have h₁ : a.2.owner = use.1 := of_decide_eq_true hau
        have h₂ : b.2.owner = use'.1 := of_decide_eq_true hbu
        rw [hsplit, List.pairwise_append] at distinct
        have hlt := distinct.2.2 use' huse' use List.mem_cons_self
        rw [hrow] at h₁
        omega
    have h'' := h'.copyDirective hm hs hsite ho' hnew hh' hget waiting
    refine ⟨?_, ?_, fun x => ?_⟩
    · refine h''.next hm hs h''.sound h''.copying rfl rfl ?_ fun o v hov => .inl hov
      rintro o ((hd | ⟨use', hu', hrest⟩) | hrest)
      · exact .inl hd
      · exact .inr ⟨use', List.mem_append_left _ hu', hrest⟩
      · exact .inr ⟨use, by simp, hrest⟩
    · rw [copyDirective_eq, directives_setDirectives, if_pos rfl]
      conv_lhs => rw [same]
      cases site <;> rfl
    · rw [nodes_copyDirective h'.sound.closed, nodes, List.append_assoc]
      congr 1
      split
      · have hnode : (⟨use.2.name, ((t'.directives site).argumentsOf use.1).map fun a =>
            (a.2.name, t'.read (m.image a.2.value))⟩ : DirectiveNode) = s.nodeOf site use := by
          rw [nodeOf, h'.copying.argumentsOf (le_issued hget)]
          congr 1
          refine List.map_congr_left fun a ha => ?_
          rw [(h'.copied _ (has a ha).1).2.2]
        rw [hnode, List.map_append, List.map_singleton]
      · rfl

/-! ## Selections -/

theorem Cloning.copyFieldArguments (h : Cloning G s source clone m done t) {copy : Int}
    (hx : t.selections.contains copy) (hnew : (s.selections.issued : Int) < copy)
    (unplaced : ∀ p ∈ t.placements.rows, p.child ≠ copy) (as : List (Int × FieldArgument))
    (has : ∀ a ∈ as, s.fieldArguments.get? a.1 = some a.2 ∧
      s.documentOf a.2.value = some source ∧ ¬ done (.argument a.1))
    (distinct : as.Pairwise fun a b => a.1 < b.1) :
    let t' := as.foldl (copyFieldArgument m copy) t
    Cloning G s source clone m (fun o => done o ∨ ∃ a ∈ as, o = .argument a.1) t' ∧
    t' = { t with fieldArguments := t'.fieldArguments } ∧
    ∀ x, t'.arguments x = t.arguments x ++
      if copy = x then as.map (fun a => (a.2.name, s.read a.2.value)) else [] := by
  refine foldl_snoc_induction (f := copyFieldArgument m copy) (b := t)
    (P := fun pre t' =>
      Cloning G s source clone m (fun o => done o ∨ ∃ a ∈ pre, o = .argument a.1) t' ∧
      t' = { t with fieldArguments := t'.fieldArguments } ∧
      ∀ x, t'.arguments x = t.arguments x ++
        if copy = x then pre.map (fun a => (a.2.name, s.read a.2.value)) else []) as ?_ ?_
  · exact ⟨h.next hm hs h.sound h.copying rfl rfl (fun o => .inl) fun o v ho => .inl ho, rfl,
      by simp⟩
  · rintro pre a post hsplit t' ⟨h', same, arguments⟩
    obtain ⟨hget, hsource, hnot⟩ := has a (by simp [hsplit])
    have owner : s.owns (.argument a.1) = some a.2.value :=
      Option.map_eq_some_iff.mpr ⟨a.2, hget, rfl⟩
    have free := h'.unowned_next (fun _ _ => Owner.argument.inj) hsplit distinct owner hsource
      (fun hc => hc) hnot
    have hcopy := h'.copied _ hsource
    have hfresh := (hm.image_fresh (mem_valuesIn_ids.mpr hsource)).1
    have hx' : t'.selections.contains copy := by
      rw [same]
      exact hx
    have hplacements : t'.placements = t.placements := by rw [same]
    have sound : (copyFieldArgument m copy t' a).Sound G :=
      h'.sound.addFieldArgument hx' hcopy.1 free (.of_not_placed (hplacements ▸ unplaced))
    have copying : Copying s (copyFieldArgument m copy t' a) :=
      h'.copying.addFieldArgument hnew hfresh
    refine ⟨h'.next hm hs sound copying rfl rfl ?_ ?_, ?_, fun x => ?_⟩
    · rintro o (hd | ⟨b, hb, he⟩)
      · exact .inl hd
      · exact .inr ⟨b, List.mem_append_left _ hb, he⟩
    · intro o v ho
      rw [copyFieldArgument, owns_addFieldArgument] at ho
      split at ho
      · next he =>
        cases ho
        exact .inr ⟨_, _, owner, hsource, .inr ⟨a, by simp, rfl⟩, rfl,
          fun _ _ he' => nomatch he.symm.trans he'⟩
      · exact .inl ho
    · simp only [copyFieldArgument, addFieldArgument]
      conv_lhs => rw [same]
    · rw [copyFieldArgument, arguments_addFieldArgument, arguments, List.append_assoc]
      congr 1
      split
      · rw [List.map_append, List.map_singleton, hcopy.2.2]
      · rfl

end

/-- An owner that stands on a selection. -/
def StandsOn (s : Store) (x : Int) : Owner → Prop
  | .argument id => ∃ a, s.fieldArguments.get? id = some a ∧ a.selection = x
  | .directive .selection id => ∃ a u, (s.directives .selection).arguments.get? id = some a ∧
      (s.directives .selection).uses.get? a.owner = some u ∧ u.owner = x
  | _ => False

theorem StandsOn.unique {x x' : Int} {o : Owner} (h : s.StandsOn x o) (h' : s.StandsOn x' o) :
    x = x' := by
  cases o with
  | argument id =>
    obtain ⟨a, ha, rfl⟩ := h
    obtain ⟨a', ha', rfl⟩ := h'
    cases ha.symm.trans ha'
    rfl
  | directive site id =>
    cases site with
    | selection =>
      obtain ⟨a, u, ha, hu, rfl⟩ := h
      obtain ⟨a', u', ha', hu', rfl⟩ := h'
      cases ha.symm.trans ha'
      cases hu.symm.trans hu'
      rfl
    | _ => cases h
  | _ => cases h

theorem standsOn_of_mem_argumentRows {x : Int} {a : Int × FieldArgument}
    (h : a ∈ s.argumentRows x) : s.StandsOn x (.argument a.1) := by
  obtain ⟨hm, hx⟩ := List.mem_filter.mp h
  exact ⟨a.2, get?_of_mem hm, of_decide_eq_true hx⟩

theorem standsOn_of_mem_argumentsOf {x : Int} {use : Int × DirectiveUse}
    (hu : use ∈ (s.directives .selection).usesOf x) {a : Int × DirectiveArgument}
    (h : a ∈ (s.directives .selection).argumentsOf use.1) :
    s.StandsOn x (.directive .selection a.1) := by
  obtain ⟨hm, hx⟩ := List.mem_filter.mp hu
  obtain ⟨ha, ho⟩ := List.mem_filter.mp h
  refine ⟨a.2, use.2, get?_of_mem ha, ?_, of_decide_eq_true hx⟩
  rw [of_decide_eq_true ho]
  exact get?_of_mem hm

/-- What stands on a selection of a document that borrows nothing belongs to the document. -/
theorem Sound.documentOf_of_standsOn (h : s.Sound G) {d : Int} (hd : ¬ G d) {p : Placement}
    (hp : p ∈ s.placements.rows) (hpd : p.document = d) {o : Owner} (ho : s.StandsOn p.child o)
    {v : Int} (hv : s.owns o = some v) : s.documentOf v = some d := by
  subst hpd
  cases o with
  | argument id =>
    obtain ⟨a, ha, hx⟩ := ho
    obtain ⟨a', ha', rfl⟩ := Option.map_eq_some_iff.mp hv
    cases ha.symm.trans ha'
    exact h.arguments a (mem_rows_of_get? ha) p hp hx.symm hd
  | directive site id =>
    cases site with
    | selection =>
      obtain ⟨a, u, ha, hu, hx⟩ := ho
      obtain ⟨a', ha', rfl⟩ := Option.map_eq_some_iff.mp hv
      cases ha.symm.trans ha'
      exact h.directives .selection _ u hu a (mem_rows_of_get? ha) rfl p hp hx.symm hd
    | _ => cases ho
  | _ => cases ho

theorem Cloning.copySelection {n : Nat}
    (hm : m.Copies ((s.valuesIn source).map (·.1)) s.values.issued n) (hs : s.Sound G)
    (h : Cloning G s source clone m done t) (unplaced : t.placements = s.placements)
    (ids : CopyMap) {e : Int × SelectionRow} (hget : s.selections.get? e.1 = some e.2)
    (he : ∀ o, s.StandsOn e.1 o → ¬ done o ∧
      ∀ v, s.owns o = some v → s.documentOf v = some source) :
    ∃ t', Store.copySelection m (t, ids) e = (t', ids ++ [(e.1, t.selections.nextId)]) ∧
      Cloning G s source clone m (fun o => done o ∨ s.StandsOn e.1 o) t' ∧
      t' = { t with
        selections := t.selections.push e.2, fieldArguments := t'.fieldArguments
        selectionDirectives := t'.selectionDirectives } ∧
      (∀ x, t'.arguments x = t.arguments x ++
        if t.selections.nextId = x then s.arguments e.1 else []) ∧
      ∀ x, t'.nodes .selection x = t.nodes .selection x ++
        if t.selections.nextId = x then s.nodes .selection e.1 else [] := by
  have hold := le_issued hget
  have hissued := h.copying.selections.issued_le
  have hnext := t.selections.issued_lt_nextId
  have hnew : (s.selections.issued : Int) < t.selections.nextId := by omega
  have elsewhere : ∀ p ∈ t.placements.rows, p.child ≠ t.selections.nextId := by
    intro p hp
    rw [unplaced] at hp
    have := le_issued_of_contains (hs.closed.placements p hp).2.1
    omega
  have hargs := h.copying.argumentRows hold
  have huses : (t.directives .selection).usesOf e.1 = (s.directives .selection).usesOf e.1 :=
    h.copying.usesOf hold
  -- The row, then its arguments, then its directives.
  have h₁ : Cloning G s source clone m done (t.addSelection e.2).1 :=
    h.next hm hs (h.sound.addSelection e.2) (h.copying.addSelection e.2) rfl rfl (fun _ hd => hd)
      fun o v ho => .inl (by cases o <;> exact ho)
  obtain ⟨h₂, same₂, arguments₂⟩ := h₁.copyFieldArguments hm hs
    (contains_push_nextId t.selections e.2) hnew elsewhere (s.argumentRows e.1)
    (fun a ha => by
      have stands := standsOn_of_mem_argumentRows ha
      have hrow := get?_of_mem (List.mem_filter.mp ha).1
      obtain ⟨hnot, hsource⟩ := he _ stands
      exact ⟨hrow, hsource _ (Option.map_eq_some_iff.mpr ⟨a.2, hrow, rfl⟩), hnot⟩)
    (s.fieldArguments.ordered.filter _)
  generalize ht₂ : (s.argumentRows e.1).foldl (copyFieldArgument m t.selections.nextId)
    (t.addSelection e.2).1 = t₂ at h₂ same₂ arguments₂
  have owner₂ : t₂.isOwner .selection t.selections.nextId := by
    rw [same₂]
    exact contains_push_nextId t.selections e.2
  have elsewhere₂ : ∀ p ∈ t₂.placements.rows, p.child ≠ t.selections.nextId := by
    rw [same₂]
    exact elsewhere
  obtain ⟨h₃, same₃, nodes₃⟩ := h₂.copyDirectives hm hs (by decide : Site.selection ≠ .declaration)
    owner₂ hnew (fun v _ => .of_not_placed elsewhere₂) ((s.directives .selection).usesOf e.1)
    (fun use hu => by
      refine ⟨get?_of_mem (List.mem_filter.mp hu).1, fun a ha => ?_⟩
      have stands := standsOn_of_mem_argumentsOf hu ha
      have hrow := get?_of_mem (List.mem_filter.mp ha).1
      obtain ⟨hnot, hsource⟩ := he _ stands
      refine ⟨hsource _ (Option.map_eq_some_iff.mpr ⟨a.2, hrow, rfl⟩), ?_⟩
      rintro (hd | ⟨_, _, hkind⟩)
      · exact hnot hd
      · cases hkind)
    ((s.directives .selection).uses.ordered.filter _)
  generalize ht₃ : ((s.directives .selection).usesOf e.1).foldl
    (Store.copyDirective .selection m t.selections.nextId) t₂ = t₃ at h₃ same₃ nodes₃
  refine ⟨t₃, ?_, ?_, ?_, fun x => ?_, fun x => ?_⟩
  · rw [← ht₃, ← ht₂, ← hargs, ← huses]
    rfl
  · refine h₃.next hm hs h₃.sound h₃.copying rfl rfl ?_ fun o v ho => .inl ho
    rintro o ((hd | ⟨a, ha, rfl⟩) | ⟨use, hu, a, ha, rfl⟩)
    · exact .inl hd
    · exact .inr (standsOn_of_mem_argumentRows ha)
    · exact .inr (standsOn_of_mem_argumentsOf hu ha)
  · rw [same₃, same₂]
    rfl
  · have : t₃.arguments x = t₂.arguments x := by
      rw [same₃]
      apply arguments_of_tables <;> rfl
    have old : (t.addSelection e.2).1.arguments x = t.arguments x := by
      apply arguments_of_tables <;> rfl
    rw [this, arguments₂, old]
    rfl
  · have : t₂.nodes .selection x = t.nodes .selection x := by
      rw [same₂]
      apply nodes_of_tables <;> rfl
    rw [nodes₃, this]
    rfl

/-- The selections in `pre` were copied. -/
structure SelectionsCopied (G : Int → Prop) (s : Store) (source clone : Int) (m : CopyMap)
    (done : Owner → Prop) (t₀ : Store) (pre : List (Int × SelectionRow)) (t : Store)
    (ids : CopyMap) : Prop where
  cloning : Cloning G s source clone m (fun o => done o ∨ ∃ e ∈ pre, s.StandsOn e.1 o) t
  map : ids.Copies (pre.map (·.1)) s.selections.issued t.selections.issued
  same : t = { t₀ with
    selections := t.selections, fieldArguments := t.fieldArguments
    selectionDirectives := t.selectionDirectives }
  copies : ∀ e ∈ pre, t.selections.get? (ids.image e.1) = some e.2 ∧
    t.arguments (ids.image e.1) = s.arguments e.1 ∧
    t.nodes .selection (ids.image e.1) = s.nodes .selection e.1

theorem Cloning.copySelections {n : Nat}
    (hm : m.Copies ((s.valuesIn source).map (·.1)) s.values.issued n) (hs : s.Sound G)
    {t₀ : Store} (h : Cloning G s source clone m done t₀)
    (hplaced : t₀.placements = s.placements)
    (hdone : ∀ x o, s.StandsOn x o → ¬ done o) (owned : List (Int × SelectionRow))
    (howned : ∀ e ∈ owned, s.selections.get? e.1 = some e.2 ∧
      ∀ o v, s.StandsOn e.1 o → s.owns o = some v → s.documentOf v = some source)
    (distinct : owned.Pairwise fun a b => a.1 < b.1) :
    SelectionsCopied G s source clone m done t₀ owned
      (owned.foldl (Store.copySelection m) (t₀, [])).1
      (owned.foldl (Store.copySelection m) (t₀, [])).2 := by
  refine foldl_snoc_induction (P := fun pre (r : Store × CopyMap) =>
    SelectionsCopied G s source clone m done t₀ pre r.1 r.2) owned ?_ ?_
  · refine ⟨?_, .nil _ _, rfl, fun _ he => absurd he List.not_mem_nil⟩
    exact h.next hm hs h.sound h.copying rfl rfl (fun o => .inl) fun o v ho => .inl ho
  rintro pre e post hsplit ⟨t, ids⟩ hr
  change SelectionsCopied G s source clone m done t₀ pre t ids at hr
  obtain ⟨hget, hsource⟩ := howned e (by simp [hsplit])
  have hplacements : t.placements = s.placements := by
    rw [hr.same]
    exact hplaced
  have later : ∀ e' ∈ pre, e'.1 < e.1 := by
    intro e' he'
    rw [hsplit, List.pairwise_append] at distinct
    exact distinct.2.2 e' he' e List.mem_cons_self
  obtain ⟨t', step, cloning, same, arguments, nodes⟩ := hr.cloning.copySelection hm hs hplacements
    ids hget fun o ho => by
      refine ⟨?_, fun v => hsource o v ho⟩
      rintro (hd | ⟨e', he', ho'⟩)
      · exact hdone _ _ ho hd
      · have := later e' he'
        have := ho.unique ho'
        omega
  have hselections : t'.selections = t.selections.push e.2 := by rw [same]
  rw [step]
  refine ⟨?_, ?_, ?_, fun e' he' => ?_⟩
  · refine cloning.next hm hs cloning.sound cloning.copying rfl rfl ?_ fun o v ho => .inl ho
    rintro o ((hd | ⟨e', he', ho⟩) | ho)
    · exact .inl hd
    · exact .inr ⟨e', List.mem_append_left _ he', ho⟩
    · exact .inr ⟨e, by simp, ho⟩
  · rw [List.map_append, hselections]
    exact hr.map.snoc hr.cloning.copying.selections.issued_le e.1
  · change t' = { t₀ with
      selections := t'.selections, fieldArguments := t'.fieldArguments
      selectionDirectives := t'.selectionDirectives }
    conv_lhs => rw [same, hr.same]
    rw [hselections]
  · change t'.selections.get? ((ids ++ [(e.1, t.selections.nextId)]).image e'.1) = some e'.2 ∧
      t'.arguments ((ids ++ [(e.1, t.selections.nextId)]).image e'.1) = s.arguments e'.1 ∧
      t'.nodes .selection ((ids ++ [(e.1, t.selections.nextId)]).image e'.1) =
        s.nodes .selection e'.1
    rw [hselections, arguments, nodes]
    have hnext := t.selections.issued_lt_nextId
    rcases List.mem_append.mp he' with he' | he'
    · -- An earlier copy is a row of its own.
      have hkey := List.mem_map_of_mem (f := (·.1)) he'
      have hle := (hr.map.image_fresh hkey).2
      rw [CopyMap.image_append_of_mem (hr.map.keys.symm ▸ hkey), if_neg (by omega), if_neg (by omega),
        List.append_nil, List.append_nil]
      obtain ⟨hrow, hrest⟩ := hr.copies e' he'
      exact ⟨get?_push_of_get? hrow, hrest⟩
    · obtain rfl := List.mem_singleton.mp he'
      have hkey : e'.1 ∉ ids.map (·.1) := by
        rw [hr.map.keys]
        intro hk
        obtain ⟨e'', he'', hid⟩ := List.mem_map.mp hk
        have := later e'' he''
        omega
      rw [CopyMap.image_append_self hkey, if_pos rfl, if_pos rfl,
        hr.cloning.sound.closed.arguments_eq_nil hnext, nodes_eq_nil hr.cloning.sound.closed hnext]
      exact ⟨get?_push_nextId .., rfl, rfl⟩

end Store

end GraphDoc
