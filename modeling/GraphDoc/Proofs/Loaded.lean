import GraphDoc.Proofs.Grammar.Parsing
import GraphDoc.Proofs.Store.Appending
import GraphDoc.Document.Load
import GraphDoc.Proofs.Store.Trees

/-!
# What loading writes

Loading appends rows for the directives and the selections of a document, with their arguments. What
is read back from these rows is the syntax that was parsed, in the order in which it was written.
-/

set_option autoImplicit false

namespace GraphDoc

open Table

/-! ## Sorting -/

section Sorting

universe u
variable {α : Type u} {le : α → α → Bool}

theorem insertBy_concat {a p : α} (h : le a p) (l : List α) :
    insertBy le a (l ++ [p]) = insertBy le a l ++ [p] := by
  induction l with
  | nil => simp [insertBy, h]
  | cons b l ih =>
    simp only [List.cons_append, insertBy, ih]
    split <;> rfl

theorem sortBy_concat {p : α} {l : List α} (h : ∀ a ∈ l, le a p) :
    sortBy le (l ++ [p]) = sortBy le l ++ [p] := by
  induction l with
  | nil => rfl
  | cons a l ih =>
    rw [List.cons_append, sortBy, sortBy, ih fun b hb => h b (List.mem_cons_of_mem a hb),
      insertBy_concat (h a List.mem_cons_self)]

theorem insertBy_of_le {a : α} {l : List α} (h : ∀ b ∈ l, le a b) :
    insertBy le a l = a :: l := by
  cases l with
  | nil => rfl
  | cons b l => rw [insertBy, if_pos (h b List.mem_cons_self)]

variable (total : ∀ a b, le a b = true ∨ le b a = true)
  (trans : ∀ a b c, le a b = true → le b c = true → le a c = true)

include total trans

theorem sortBy_pairwise (l : List α) : (sortBy le l).Pairwise fun a b => le a b := by
  induction l with
  | nil => exact .nil
  | cons a l ih =>
    rw [sortBy]
    generalize sortBy le l = m at ih
    induction m with
    | nil => exact List.pairwise_singleton ..
    | cons b m ihm =>
      obtain ⟨hb, hm⟩ := List.pairwise_cons.mp ih
      rw [insertBy]
      split
      · rename_i hab
        refine List.pairwise_cons.mpr ⟨fun c hc => ?_, ih⟩
        rcases List.mem_cons.mp hc with rfl | hc
        · exact hab
        · exact trans a b c hab (hb c hc)
      · rename_i hab
        refine List.pairwise_cons.mpr ⟨fun c hc => ?_, ihm hm⟩
        rcases List.mem_cons.mp ((insertBy_perm le a m).mem_iff.mp hc) with rfl | hc
        · exact (total c b).resolve_left hab
        · exact hb c hc

theorem filter_sortBy (q : α → Bool) (l : List α) :
    (sortBy le l).filter q = sortBy le (l.filter q) := by
  induction l with
  | nil => rfl
  | cons a l ih =>
    have sorted := sortBy_pairwise total trans l
    rw [sortBy, List.filter_cons]
    generalize sortBy le l = m at ih sorted
    have kept : (insertBy le a m).filter q =
        if q a = true then insertBy le a (m.filter q) else m.filter q := by
      clear ih
      induction m with
      | nil => simp [insertBy, List.filter_cons]
      | cons b m ihm =>
        obtain ⟨hb, hm⟩ := List.pairwise_cons.mp sorted
        rw [insertBy]
        split
        · rename_i hab
          have first : insertBy le a ((b :: m).filter q) = a :: (b :: m).filter q := by
            refine insertBy_of_le fun c hc => ?_
            rcases List.mem_cons.mp (List.mem_filter.mp hc).1 with rfl | hc
            · exact hab
            · exact trans a b c hab (hb c hc)
          rw [first, List.filter_cons]
        · rename_i hab
          rw [List.filter_cons, ihm hm, List.filter_cons]
          by_cases ha : q a = true <;> by_cases hq : q b = true <;> simp [ha, hq, insertBy, hab]
    rw [kept, ih]
    split
    · rw [sortBy]
    · rfl

end Sorting

namespace Grammar

def literalValues (as : List (String × Literal)) : List (String × Value) :=
  as.map fun a => (a.1, a.2.toValue)

/-- A directive with the values of its arguments. -/
def Directive.node (d : Directive) : DirectiveNode := ⟨d.name, literalValues d.arguments⟩

mutual

/-- The tree of a selection, without numbers, where fields of `scope?` are selected. Below a field
that the schema does not know there is no type. -/
def Selection.node (schema : Schema) (scope? : Option String) : Selection → SelectionNode
  | .field _ label? name arguments directives selections =>
    let type? := scope?.map (Schema.idOf · name)
    .node 0 ⟨name, label?, .field, type?⟩ (literalValues arguments) (directives.map Directive.node)
      (Selection.nodes schema ((type?.bind schema.fieldType?).map (·.name)) selections)
  | .inline _ condition? directives selections =>
    let inner? := condition?.orElse fun _ => scope?
    .node 0 ⟨inner?.getD "", none, .inlineFragment, none⟩ [] (directives.map Directive.node)
      (Selection.nodes schema inner? selections)
  | .spread _ name directives =>
    .node 0 ⟨name, none, .fragment, none⟩ [] (directives.map Directive.node) []

def Selection.nodes (schema : Schema) (scope? : Option String) :
    List Selection → List SelectionNode
  | [] => []
  | x :: rest => x.node schema scope? :: Selection.nodes schema scope? rest

end

end Grammar

namespace Store

open Grammar

variable {s : Store} {site : Site} {document : Int}

/-! ## Directives -/

def readDirectiveArgument (s : Store) (x : Int × DirectiveArgument) :
    Except Failure (String × Value) := do
  return (x.2.name, ← s.value x.2.value)

def readDirective (site : Site) (s : Store) (use : Int × DirectiveUse) :
    Except Failure DirectiveNode := do
  return ⟨use.2.name, ← s.directiveArgumentValues site use.1⟩

theorem argumentsOf_addDirectiveArgument (s : Store) (site : Site) (row : DirectiveArgument)
    (use : Int) : ((s.addDirectiveArgument site row).1.directives site).argumentsOf use =
      (s.directives site).argumentsOf use ++
        if row.owner = use then [((s.directives site).arguments.nextId, row)] else [] := by
  simp only [addDirectiveArgument, directives_setDirectives, if_true,
    DirectiveTables.argumentsOf, entries_push, List.filter_append]
  by_cases h : row.owner = use <;> simp [h]

theorem usesOf_addDirective (s : Store) (site : Site) (row : DirectiveUse) (owner : Int) :
    ((s.addDirective site row).1.directives site).usesOf owner =
      (s.directives site).usesOf owner ++
        if row.owner = owner then [((s.directives site).uses.nextId, row)] else [] := by
  simp only [addDirective, directives_setDirectives, if_true,
    DirectiveTables.usesOf, entries_push, List.filter_append]
  by_cases h : row.owner = owner <;> simp [h]

theorem Closed.argumentsOf_eq_nil (h : s.Closed) {use : Int}
    (hu : ((s.directives site).uses.issued : Int) < use) :
    (s.directives site).argumentsOf use = [] := by
  refine List.filter_eq_nil_iff.mpr fun x hx => ?_
  have hm := mem_rows_of_get? (get?_of_mem hx)
  have := le_issued_of_contains ((h.directives site).arguments x.2 hm).1
  simp only [decide_eq_true_eq]
  omega

theorem loadDirectiveArgument_writes (hs : s.Closed) (hd : s.documents.contains document)
    {use : Int} (hu : (s.directives site).uses.contains use) (d : Directive)
    (x : String × Literal) :
    Writes (fun a b => Clear (a (.directiveArgument site)) (b (.directiveArgument site)) use)
      (fun s => (s.directives site).argumentsOf use) readDirectiveArgument s
      (loadDirectiveArgument site document use d s x) [(x.1, x.2.toValue)] := by
  rw [loadDirectiveArgument]
  simp only [addValue_snd]
  apply addValue_writes
    (fun r => (r.addDirectiveArgument site ⟨use, x.1, s.values.nextId, d.position⟩).1)
    (fun r => ((r.directives site).arguments.nextId, ⟨use, x.1, s.values.nextId, d.position⟩)) hs
  · exact fun o h => Option.some.inj h ▸ hd
  · exact fun b => .inl (le_issued_of_contains hu)
  · intro a b r new here free
    exact (Appends.refl a b r).addDirectiveArgument ((new.uses site).contains hu) here free
  · intro r new
    rw [argumentsOf_addDirectiveArgument, if_pos rfl, new.argumentsOf (not_clear hu)]
  · intro r t value
    rw [readDirectiveArgument, value]
    rfl

theorem foldl_loadDirectiveArgument_writes (hs : s.Closed)
    (hd : s.documents.contains document) {use : Int}
    (hu : (s.directives site).uses.contains use) (d : Directive)
    (as : List (String × Literal)) :
    Writes (fun a b => Clear (a (.directiveArgument site)) (b (.directiveArgument site)) use)
      (fun s => (s.directives site).argumentsOf use) readDirectiveArgument s
      (as.foldl (loadDirectiveArgument site document use d) s) (literalValues as) :=
  Writes.foldl_map (P := fun s => s.Closed ∧ s.documents.contains document ∧
      (s.directives site).uses.contains use)
    (fun h hs => ⟨h.closed hs.1, h.documents.contains hs.2.1, (h.uses site).contains hs.2.2⟩)
    (fun _ hs _ => .inl (le_issued_of_contains hs.2.2)) as
    (fun _ hs x _ => loadDirectiveArgument_writes hs.1 hs.2.1 hs.2.2 d x) ⟨hs, hd, hu⟩

theorem seated_directiveArguments (site : Site) (use : Int) (low : Seat → Nat) :
    Seated (.directiveArgument site) use low
      (fun a b => Clear (a (.directiveArgument site)) (b (.directiveArgument site)) use)
      (fun s => (s.directives site).argumentsOf use) :=
  ⟨fun h => h, fun h _ hx => h.argumentsOf hx⟩

theorem loadDirective_writes (hs : s.Closed) (hd : s.documents.contains document)
    {owner : Int} (ho : s.isOwner site owner) (d : Directive) :
    Writes (fun a b => Clear (a (.directive site)) (b (.directive site)) owner)
      (fun s => (s.directives site).usesOf owner) (readDirective site) s
      (loadDirective site document owner s d) [d.node] := by
  have step := fun a b => (Appends.refl a b s).addDirective ⟨owner, d.name, d.position⟩ ho
  have here : ((s.addDirective site ⟨owner, d.name, d.position⟩).1.directives site).uses.contains
      (s.directives site).uses.nextId := by
    simp [addDirective]
  have shows := s.usesOf_addDirective site ⟨owner, d.name, d.position⟩ owner
  have nothing : ((s.addDirective site ⟨owner, d.name, d.position⟩).1.directives site).argumentsOf
      (s.directives site).uses.nextId = [] := by
    simp only [addDirective, directives_setDirectives, if_true]
    exact hs.argumentsOf_eq_nil (s.directives site).uses.issued_lt_nextId
  rw [if_pos rfl] at shows
  rw [loadDirective]
  simp only [show (s.addDirective site ⟨owner, d.name, d.position⟩).2 =
    (s.directives site).uses.nextId from rfl]
  generalize (s.addDirective site ⟨owner, d.name, d.position⟩).1 = s₁ at *
  have first := step s.marks s.marks (.inl (le_marks_of_isOwner ho))
  have row : NewRow [.directiveArgument site] (s.directives site).uses.nextId s s₁ := by
    refine ⟨first.marks_le, fun k hk => ?_, fun k hk => ?_⟩ <;> cases List.mem_singleton.mp hk
    · exact (s.directives site).uses.issued_lt_nextId
    · exact le_issued_of_contains here
  have seated := seated_directiveArguments site (s.directives site).uses.nextId s.marks
  have arguments := foldl_loadDirectiveArgument_writes (first.closed hs)
    (first.documents.contains hd) here d d.arguments
  refine row.writes step (arguments.furnishes seated) shows
    (fun h => h.usesOf (not_clear_directive ho)) fun t later => ?_
  have values : t.directiveArgumentValues site (s.directives site).uses.nextId =
      .ok (literalValues d.arguments) :=
    row.reads seated List.mem_cons_self nothing (.refl _ s₁) arguments (.refl _ _)
      (fun k hk => absurd hk List.not_mem_nil) (fun k hk => absurd hk List.not_mem_nil) later
  simp only [readDirective, values]
  rfl

theorem loadDirectives_writes (site : Site) (hs : s.Closed) (hd : s.documents.contains document)
    {owner : Int} (ho : s.isOwner site owner) (ds : List Directive) :
    Writes (fun a b => Clear (a (.directive site)) (b (.directive site)) owner)
      (fun s => (s.directives site).usesOf owner) (readDirective site) s
      (s.loadDirectives site document owner ds) (ds.map Directive.node) :=
  Writes.foldl_map (P := fun s => s.Closed ∧ s.documents.contains document ∧
      s.isOwner site owner)
    (fun h hs => ⟨h.closed hs.1, h.documents.contains hs.2.1, h.isOwner hs.2.2⟩)
    (fun _ hs _ => .inl (le_marks_of_isOwner hs.2.2)) ds
    (fun _ hs d _ => loadDirective_writes hs.1 hs.2.1 hs.2.2 d) ⟨hs, hd, ho⟩

/-! ## Selections -/

def readArgument (s : Store) (x : Int × FieldArgument) : Except Failure (String × Value) := do
  return (x.2.name, ← s.value x.2.value)

theorem loadFieldArgument_writes (hs : s.Closed) (hd : s.documents.contains document)
    {selection : Int} (hx : s.selections.contains selection) (type? : Option String)
    (p : Position) (x : String × Literal) :
    Writes (fun a b => Clear (a .argument) (b .argument) selection)
      (fun s => s.argumentRows selection) readArgument s
      (loadFieldArgument document selection type? p s x) [(x.1, x.2.toValue)] := by
  rw [loadFieldArgument]
  simp only [addValue_snd]
  generalize (if ((type?.map (Schema.idOf · x.1)).bind s.schema.argumentType?).isSome = true then
    type?.map (Schema.idOf · x.1) else none) = declared?
  apply addValue_writes
    (fun r => (r.addFieldArgument ⟨selection, x.1, s.values.nextId, declared?, p⟩).1)
    (fun r => (r.fieldArguments.nextId, ⟨selection, x.1, s.values.nextId, declared?, p⟩)) hs
  · exact fun o h => Option.some.inj h ▸ hd
  · exact fun b => .inl (le_issued_of_contains hx)
  · intro a b r new here free
    exact (Appends.refl a b r).addFieldArgument (new.selections.contains hx) here free
  · intro r new
    rw [argumentRows_addFieldArgument, if_pos rfl, new.argumentRows (not_clear hx)]
  · intro r t value
    rw [readArgument, value]
    rfl

theorem foldl_loadFieldArgument_writes (hs : s.Closed) (hd : s.documents.contains document)
    {selection : Int} (hx : s.selections.contains selection) (type? : Option String)
    (p : Position) (as : List (String × Literal)) :
    Writes (fun a b => Clear (a .argument) (b .argument) selection)
      (fun s => s.argumentRows selection) readArgument s
      (as.foldl (loadFieldArgument document selection type? p) s) (literalValues as) :=
  Writes.foldl_map (P := fun s => s.Closed ∧ s.documents.contains document ∧
      s.selections.contains selection)
    (fun h hs => ⟨h.closed hs.1, h.documents.contains hs.2.1, h.selections.contains hs.2.2⟩)
    (fun _ hs _ => .inl (le_issued_of_contains hs.2.2)) as
    (fun _ hs x _ => loadFieldArgument_writes hs.1 hs.2.1 hs.2.2 type? p x) ⟨hs, hd, hx⟩

theorem filter_byIndex (q : Placement → Bool) (ps : List Placement) :
    (sortBy (fun a b => decide (a.index ≤ b.index)) ps).filter q =
      sortBy (fun a b => decide (a.index ≤ b.index)) (ps.filter q) := by
  apply filter_sortBy
  · intro a b
    simp only [decide_eq_true_eq]
    omega
  · intro a b c
    simp only [decide_eq_true_eq]
    omega

/-- The placements at one place of a document, by index. -/
def placesAt (s : Store) (document : Int) (parent? : Option Int) : List Placement :=
  sortBy (fun a b => decide (a.index ≤ b.index))
    ((s.placements.rows.filter (·.document = document)).filter (·.parent? = parent?))

theorem Appends.placesAt {a b : Seat → Nat} {s t : Store} (h : Appends a b s t) {document : Int}
    {parent? : Option Int} (hp : ¬ ClearPlace a b document parent?) :
    t.placesAt document parent? = s.placesAt document parent? := by
  simp only [Store.placesAt, List.filter_filter]
  rw [h.placements.filter_rows]
  intro p free
  by_contra here
  rw [Bool.not_eq_false, Bool.and_eq_true, decide_eq_true_eq, decide_eq_true_eq] at here
  exact hp (here.1 ▸ here.2 ▸ free)

/-- The selection that is placed somewhere, with what stands below it down to a depth. -/
def nodeAt (s : Store) (document : Int) (depth : Nat) (p : Placement) :
    Except Failure SelectionNode := do
  let arguments ← s.argumentValues p.child
  let directives ← s.directiveNodes .selection p.child
  let children ← s.level (s.placed document) depth (some p.child)
  return .node p.child ((s.selections.get? p.child).getD default) arguments directives children

/-- Every placed selection is there, so none is passed over. -/
theorem Closed.placed_eq (hs : s.Closed) (document : Int) :
    s.placed document = (sortBy (fun a b => decide (a.index ≤ b.index))
      (s.placements.rows.filter (·.document = document))).map fun p =>
        (p, (s.selections.get? p.child).getD default) := by
  refine List.filterMap_eq_map_iff_forall_eq_some.mpr fun p hp => ?_
  have hm := (List.mem_filter.mp ((mem_sortBy_iff _ _).mp hp)).1
  obtain ⟨row, hrow⟩ := contains_iff.mp (hs.placements p hm).2.1
  rw [hrow]
  rfl

theorem Closed.level_succ (hs : s.Closed) (document : Int) (depth : Nat) (parent? : Option Int) :
    s.level (s.placed document) (depth + 1) parent? =
      (s.placesAt document parent?).mapM (s.nodeAt document depth) := by
  have here : (s.placed document).filter (·.1.parent? = parent?) =
      (s.placesAt document parent?).map fun p =>
        (p, (s.selections.get? p.child).getD default) := by
    rw [hs.placed_eq, List.filter_map, filter_byIndex]
    rfl
  rw [level, here, List.mapM_map]
  refine mapM_congr fun p _ => ?_
  rfl

theorem Closed.argumentRows_eq_nil (h : s.Closed) {x : Int}
    (hx : (s.selections.issued : Int) < x) : s.argumentRows x = [] := by
  refine List.filter_eq_nil_iff.mpr fun a ha => ?_
  have hm := mem_rows_of_get? (get?_of_mem ha)
  have := le_issued_of_contains (h.fieldArguments a.2 hm).1
  simp only [decide_eq_true_eq]
  omega

theorem Closed.usesOf_eq_nil (h : s.Closed) (site : Site) {owner : Int}
    (ho : (s.marks (.directive site) : Int) < owner) : (s.directives site).usesOf owner = [] := by
  refine List.filter_eq_nil_iff.mpr fun u hu => ?_
  have hm := mem_rows_of_get? (get?_of_mem hu)
  have := le_marks_of_isOwner ((h.directives site).uses u.2 hm)
  simp only [decide_eq_true_eq]
  omega

theorem Closed.placesAt_eq_nil (h : s.Closed) (document : Int) {x : Int} (hx : (s.selections.issued : Int) < x) :
    s.placesAt document (some x) = [] := by
  rw [placesAt, List.filter_eq_nil_iff.mpr, sortBy]
  intro p hp
  have hm := (h.placements p (List.mem_filter.mp hp).1).1
  rw [decide_eq_true_eq]
  intro hpx
  have := le_issued_of_contains (hm x hpx)
  omega

theorem Closed.placesAt_placeSelection (h : s.Closed) {parent? : Option Int}
    (hp : ∀ x, parent? = some x → s.selections.contains x) {index : Int} {p : Position}
    {row : SelectionRow} : (s.placeSelection document parent? index p row).1.placesAt document
      (some s.selections.nextId) = [] := by
  have hx := s.selections.issued_lt_nextId
  have other : ¬ parent? = some s.selections.nextId := by
    intro hpx
    have := le_issued_of_contains (hp _ hpx)
    omega
  have rows : (s.placeSelection document parent? index p row).1.placements.rows =
      s.placements.rows ++ [⟨parent?, s.selections.nextId, document, index, p⟩] :=
    rows_push ..
  rw [← h.placesAt_eq_nil document hx, placesAt, placesAt, rows]
  simp [other]

/-- The tree at a placement, without numbers. -/
def readNode (document : Int) (depth : Nat) (s : Store) (p : Placement) :
    Except Failure SelectionNode :=
  (s.nodeAt document depth p).map (SelectionNode.rewrite (fun _ => 0) (fun _ row => row) fun v => v)

/-- The selections at a place, without numbers. -/
theorem Closed.level_unnumbered (hs : s.Closed) (document : Int) (depth : Nat)
    (parent? : Option Int) : (s.level (s.placed document) (depth + 1) parent?).map
      (SelectionNode.rewriteAll (fun _ => 0) (fun _ row => row) fun v => v) =
      (s.placesAt document parent?).mapM (readNode document depth s) := by
  rw [hs.level_succ, show SelectionNode.rewriteAll (fun _ => 0) (fun _ row => row) (fun v => v) =
    List.map (SelectionNode.rewrite (fun _ => 0) (fun _ row => row) fun v => v)
    from funext SelectionNode.rewriteAll_eq_map, ← mapM_map_result]
  rfl

theorem Closed.readNode_eq (hs : s.Closed) {m : Nat} {p : Placement} {row : SelectionRow}
    {arguments : List (String × Value)} {directives : List DirectiveNode}
    {children : List SelectionNode} (found : s.selections.get? p.child = some row)
    (ha : s.argumentValues p.child = .ok arguments)
    (hd : s.directiveNodes .selection p.child = .ok directives)
    (hc : (s.placesAt document (some p.child)).mapM (readNode document m s) = .ok children) :
    readNode document (m + 1) s p = .ok (.node 0 row arguments directives children) := by
  rw [← hs.level_unnumbered] at hc
  rw [readNode, nodeAt, ha, hd, found]
  cases tree : s.level (s.placed document) (m + 1) (some p.child) with
  | error e =>
    rw [tree] at hc
    cases hc
  | ok nodes =>
    rw [tree] at hc
    cases hc
    have node : (SelectionNode.node p.child row arguments directives nodes).rewrite (fun _ => 0)
        (fun _ row => row) (fun v => v) = .node 0 row arguments directives
          (SelectionNode.rewriteAll (fun _ => 0) (fun _ row => row) (fun v => v) nodes) := by
      simp [SelectionNode.rewrite]
    exact congrArg Except.ok node

theorem placesAt_addPlacement (s : Store) (row : Placement)
    (hi : ∀ q ∈ s.placesAt row.document row.parent?, q.index ≤ row.index) :
    (s.addPlacement row).1.placesAt row.document row.parent? =
      s.placesAt row.document row.parent? ++ [row] := by
  rw [placesAt, placesAt, ← sortBy_concat]
  · simp [addPlacement]
  · intro q hq
    exact decide_eq_true (hi q ((mem_sortBy_iff _ _).mpr hq))

/-- The ways in which rows are put on a selection. -/
def selectionSeats : List Seat := [.argument, .directive .selection, .below]

theorem seated_arguments (x : Int) (low : Seat → Nat) :
    Seated .argument x low (fun a b => Clear (a .argument) (b .argument) x)
      (fun s => s.argumentRows x) :=
  ⟨fun h => h, fun h _ hx => h.argumentRows hx⟩

theorem seated_directives (site : Site) (owner : Int) (low : Seat → Nat) :
    Seated (.directive site) owner low
      (fun a b => Clear (a (.directive site)) (b (.directive site)) owner)
      (fun s => (s.directives site).usesOf owner) :=
  ⟨fun h => h, fun h _ hx => h.usesOf hx⟩

theorem seated_below (x : Int) {low : Seat → Nat} (hd : document ≤ low .root) :
    Seated .below x low (fun a b => ClearPlace a b document (some x))
      (fun s => s.placesAt document (some x)) := by
  refine ⟨fun h => .inr ⟨fun y hy => Option.some.inj hy ▸ h, nofun⟩, fun h hlow hx => ?_⟩
  refine h.placesAt ?_
  rintro (hlt | ⟨below, -⟩)
  · have := hlow .root
    omega
  · exact hx (below x rfl)

section Placing

variable {parent? : Option Int} {index : Int} {p : Position} {row : SelectionRow}
  {s₂ s₃ r : Store} {arguments : List (String × Value)} {directives : List DirectiveNode}
  {children : List SelectionNode}

theorem placeSelection_appends (hd : s.documents.contains document)
    (hp : ∀ x, parent? = some x → s.selections.contains x) {a b : Seat → Nat}
    (free : ClearPlace a b document parent?) (index : Int) (p : Position) (row : SelectionRow) :
    Appends a b s (s.placeSelection document parent? index p row).1 := by
  have added := (Appends.refl a b s).addSelection row
  exact added.addPlacement (fun x h => added.selections.contains (hp x h))
    (contains_push_nextId ..) hd free

theorem placeSelection_newRow (hd : s.documents.contains document)
    (hp : ∀ x, parent? = some x → s.selections.contains x) (index : Int) (p : Position)
    (row : SelectionRow) : NewRow selectionSeats s.selections.nextId s
      (s.placeSelection document parent? index p row).1 := by
  refine ⟨(placeSelection_appends hd hp (clearPlace_of_contains hd hp s.marks) ..).marks_le,
    fun k hk => ?_, fun k hk => ?_⟩ <;>
  simp only [selectionSeats, List.mem_cons, List.not_mem_nil, or_false] at hk
  · rcases hk with rfl | rfl | rfl <;> exact s.selections.issued_lt_nextId
  · rcases hk with rfl | rfl | rfl <;>
    exact le_issued_of_contains (contains_push_nextId ..)

theorem placeSelection_writes {m : Nat} (hs : s.Closed)
    (hd : s.documents.contains document)
    (hp : ∀ x, parent? = some x → s.selections.contains x)
    (hi : ∀ q ∈ s.placesAt document parent?, q.index ≤ index)
    (first : Writes (fun a b => Clear (a .argument) (b .argument) s.selections.nextId)
      (fun s' => s'.argumentRows s.selections.nextId) readArgument
      (s.placeSelection document parent? index p row).1 s₂ arguments)
    (second : Writes (fun a b => Clear (a (.directive .selection)) (b (.directive .selection))
        s.selections.nextId)
      (fun s' => (s'.directives .selection).usesOf s.selections.nextId) (readDirective .selection)
      s₂ s₃ directives)
    (third : Writes (fun a b => ClearPlace a b document (some s.selections.nextId))
      (fun s' => s'.placesAt document (some s.selections.nextId)) (readNode document m) s₃ r
      children) :
    Writes (fun a b => ClearPlace a b document parent?) (fun s => s.placesAt document parent?)
      (readNode document (m + 1)) s r [.node 0 row arguments directives children] ∧
    ∀ q ∈ r.placesAt document parent?, q.index ≤ index := by
  have new := s.selections.issued_lt_nextId
  have here : (s.placeSelection document parent? index p row).1.selections.get?
      s.selections.nextId = some row := get?_push_nextId ..
  have placed := placeSelection_newRow hd hp index p row
  have pos : 0 < s.selections.nextId := placed.pos List.mem_cons_self
  have seated₁ := seated_arguments s.selections.nextId s.marks
  have seated₂ := seated_directives .selection s.selections.nextId s.marks
  have seated₃ : Seated .below _ s.marks _ _ :=
    seated_below s.selections.nextId (le_issued_of_contains hd)
  have furnished₁ := first.furnishes seated₁
  have furnished₂ := second.furnishes seated₂
  have furnished₃ := third.furnishes seated₃
  have rest := furnished₂.trans furnished₃ pos
  have step := fun a b free => @placeSelection_appends s _ _ hd hp a b free index p row
  have grown := (furnished₁.trans rest pos) unmarked s.marks placed.marks_le fun k hk =>
    .inr (placed.new k hk)
  have shows : (s.placeSelection document parent? index p row).1.placesAt document parent? =
      s.placesAt document parent? ++ [⟨parent?, s.selections.nextId, document, index, p⟩] :=
    (s.addSelection row).1.placesAt_addPlacement
      ⟨parent?, s.selections.nextId, document, index, p⟩ hi
  have stays : Appends unmarked s.marks (s.placeSelection document parent? index p row).1 r →
      r.placesAt document parent? = _ := fun h => h.placesAt (not_clearPlace hd hp)
  have closed : r.Closed :=
    grown.closed ((step _ _ (clearPlace_of_contains hd hp s.marks)).closed hs)
  refine ⟨placed.writes step (furnished₁.trans rest pos) shows stays fun t later => ?_,
    fun q hq => ?_⟩
  · have arguments : t.argumentValues s.selections.nextId = .ok arguments :=
      placed.reads seated₁ (by simp [selectionSeats]) (hs.argumentRows_eq_nil new) (.refl _ _) first
        rest nofun (by simp [selectionSeats]) later
    have directives : t.directiveNodes .selection s.selections.nextId = .ok directives :=
      placed.reads seated₂ (by simp [selectionSeats]) (hs.usesOf_eq_nil .selection new)
        furnished₁ second furnished₃ (by simp [selectionSeats]) (by simp [selectionSeats]) later
    have children := placed.reads seated₃ (by simp [selectionSeats])
      (hs.placesAt_placeSelection hp) (furnished₁.trans furnished₂ pos) third (.refl _ _)
      (by simp [selectionSeats]) nofun later
    have found : t.selections.get? s.selections.nextId = some row :=
      later.selections.get?_of_get? (grown.selections.get?_of_get? here)
    exact (later.closed closed).readNode_eq found arguments directives children
  · rw [stays grown, shows] at hq
    rcases List.mem_append.mp hq with hq | hq
    · exact hi q hq
    · exact Int.le_of_eq (congrArg Placement.index (List.mem_singleton.mp hq))

theorem placeSelection_noChildren (hs : s.Closed) (hd : s.documents.contains document)
    (hp : ∀ x, parent? = some x → s.selections.contains x)
    (first : Writes (fun a b => Clear (a .argument) (b .argument) s.selections.nextId)
      (fun s' => s'.argumentRows s.selections.nextId) readArgument
      (s.placeSelection document parent? index p row).1 s₂ arguments)
    (second : Writes (fun a b => Clear (a (.directive .selection)) (b (.directive .selection))
        s.selections.nextId)
      (fun s' => (s'.directives .selection).usesOf s.selections.nextId) (readDirective .selection)
      s₂ s₃ directives) :
    s₃.placesAt document (some s.selections.nextId) = [] := by
  have placed := placeSelection_newRow hd hp index p row
  have seated : Seated .below _ s.marks _ _ :=
    seated_below s.selections.nextId (le_issued_of_contains hd)
  have dressed := (first.furnishes (seated_arguments _ s.marks)).trans
    (second.furnishes (seated_directives .selection _ s.marks)) (placed.pos List.mem_cons_self)
  rw [placed.view_eq seated (by simp [selectionSeats]) (fun _ => Nat.le_refl _) dressed
    (by simp [selectionSeats])]
  exact hs.placesAt_placeSelection hp

end Placing

mutual

theorem loadSelection_writes (parent? : Option Int) (index : Int) (scope? : Option String)
    {m : Nat} {s : Store} (hs : s.Closed) (hd : s.documents.contains document)
    (hp : ∀ x, parent? = some x → s.selections.contains x)
    (hi : ∀ q ∈ s.placesAt document parent?, q.index ≤ index) : (x : Selection) →
    x.WellFormed m →
    Writes (fun a b => ClearPlace a b document parent?) (fun s => s.placesAt document parent?)
      (readNode document m) s (loadSelection document scope? parent? index s x)
      [x.node s.schema scope?] ∧
    ∀ q ∈ (loadSelection document scope? parent? index s x).placesAt document parent?,
      q.index ≤ index
  | .field p label? name arguments directives selections, .field _ _ hx => by
    rw [loadSelection, Selection.node]
    generalize scope?.map (Schema.idOf · name) = type?
    have placed := placeSelection_appends hd hp (clearPlace_of_contains hd hp s.marks) index p
      ⟨name, label?, .field, type?⟩
    have here : (s.placeSelection document parent? index p
        ⟨name, label?, .field, type?⟩).1.selections.contains s.selections.nextId :=
      contains_push_nextId ..
    have new := s.selections.issued_lt_nextId
    have first := foldl_loadFieldArgument_writes (placed.closed hs) (placed.documents.contains hd)
      here type? p arguments
    have dressed := first.appends s.marks s.marks placed.marks_le (.inr new)
    have second := loadDirectives_writes .selection (dressed.closed (placed.closed hs))
      (dressed.documents.contains (placed.documents.contains hd))
      (dressed.selections.contains here) directives
    have furnished := dressed.trans (second.appends s.marks s.marks
      (fun k => Nat.le_trans (placed.marks_le k) (dressed.marks_le k)) (.inr new))
    have nothing := placeSelection_noChildren hs hd hp first second
    have third := loadSelections_writes (some s.selections.nextId) 0
      ((type?.bind s.schema.fieldType?).map (·.name))
      (furnished.closed (placed.closed hs))
      (furnished.documents.contains (placed.documents.contains hd))
      (fun y hy => Option.some.inj hy ▸ furnished.selections.contains here)
      (fun q hq => by rw [nothing] at hq; cases hq) selections hx
    have schema := furnished.schema.trans placed.schema
    rw [schema] at third
    have all := placeSelection_writes hs hd hp hi first second third
    rw [← schema] at all ⊢
    exact all
  | .inline p condition? directives selections, .inline _ hx => by
    rw [loadSelection, Selection.node]
    generalize (condition?.orElse fun _ => scope?) = inner?
    have placed := placeSelection_appends hd hp (clearPlace_of_contains hd hp s.marks) index p
      ⟨inner?.getD "", none, .inlineFragment, none⟩
    have here : (s.placeSelection document parent? index p
        ⟨inner?.getD "", none, .inlineFragment, none⟩).1.selections.contains
        s.selections.nextId := contains_push_nextId ..
    have second := loadDirectives_writes .selection (placed.closed hs)
      (placed.documents.contains hd) here directives
    have furnished := second.appends s.marks s.marks placed.marks_le
      (.inr s.selections.issued_lt_nextId)
    have nothing := placeSelection_noChildren hs hd hp (.nil _) second
    have third := loadSelections_writes (some s.selections.nextId) 0 inner? (furnished.closed (placed.closed hs))
      (furnished.documents.contains (placed.documents.contains hd))
      (fun y hy => Option.some.inj hy ▸ furnished.selections.contains here)
      (fun q hq => by rw [nothing] at hq; cases hq) selections hx
    rw [furnished.schema, placed.schema] at third
    exact placeSelection_writes hs hd hp hi (.nil _) second third
  | .spread p name directives, .spread _ => by
    have placed := placeSelection_appends hd hp (clearPlace_of_contains hd hp s.marks) index p
      ⟨name, none, .fragment, none⟩
    have here : (s.placeSelection document parent? index p
        ⟨name, none, .fragment, none⟩).1.selections.contains s.selections.nextId :=
      contains_push_nextId ..
    have second := loadDirectives_writes .selection (placed.closed hs)
      (placed.documents.contains hd) here directives
    exact placeSelection_writes hs hd hp hi (.nil _) second (.nil _)

theorem loadSelections_writes (parent? : Option Int) (index : Int) (scope? : Option String)
    {m : Nat} {s : Store} (hs : s.Closed) (hd : s.documents.contains document)
    (hp : ∀ x, parent? = some x → s.selections.contains x)
    (hi : ∀ q ∈ s.placesAt document parent?, q.index ≤ index) : (xs : List Selection) →
    (∀ x ∈ xs, x.WellFormed m) →
    Writes (fun a b => ClearPlace a b document parent?) (fun s => s.placesAt document parent?)
      (readNode document m) s (loadSelections document scope? parent? index s xs)
      (Selection.nodes s.schema scope? xs)
  | [], _ => by
    rw [loadSelections, Selection.nodes]
    exact .nil s
  | x :: xs, h => by
    rw [loadSelections, Selection.nodes]
    obtain ⟨first, hi'⟩ := loadSelection_writes parent? index scope? hs hd hp hi x
      (h x List.mem_cons_self)
    generalize loadSelection document scope? parent? index s x = s' at *
    have grown := first.appends s.marks s.marks (fun _ => Nat.le_refl _)
      (clearPlace_of_contains hd hp _)
    have others := loadSelections_writes parent? (index + 1) scope?
      (grown.closed hs) (grown.documents.contains hd)
      (fun y hy => grown.selections.contains (hp y hy))
      (fun q hq => by have := hi' q hq; omega) xs fun y hy => h y (List.mem_cons_of_mem x hy)
    rw [grown.schema] at others
    exact first.append others (clearPlace_of_contains hd hp)

end

end Store

end GraphDoc
