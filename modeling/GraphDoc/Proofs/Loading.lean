import GraphDoc.Document.Load
import GraphDoc.Proofs.Grammar.Parsing
import GraphDoc.Proofs.Store.Ready

/-!
# Loading keeps the store ready

The loader adds a document, then its variables, directives and selections, each with its own values.
What it adds to a row it adds for the document that the row is in.
-/

set_option autoImplicit false

namespace GraphDoc.Store

open Grammar Table

variable {s s' s'' : Store} {G : Int → Prop}

/-- A row takes values of a document: it is the document, or it is placed there only. -/
def Admits (s : Store) (G : Int → Prop) : Site → Int → Int → Prop
  | .document, owner, document => owner = document
  | .declaration, _, _ => True
  | .selection, selection, document => ∀ p ∈ s.placements.rows, p.child = selection →
      ¬ G p.document → p.document = document

theorem Admits.houses {site : Site} {owner document value : Int}
    (h : s.Admits G site owner document) (hd : s.documentOf value = some document) :
    s.Houses G site owner value := by
  cases site with
  | document => exact h.symm ▸ hd
  | declaration => trivial
  | selection => exact fun p hp hx hg => (h p hp hx hg).symm ▸ hd

/-- The tables that name things stay; values, arguments and directives may come. -/
structure SameNames (s s' : Store) : Prop where
  sources : s'.sources = s.sources
  documents : s'.documents = s.documents
  declarations : s'.declarations = s.declarations
  selections : s'.selections = s.selections
  placements : s'.placements = s.placements
  schema : s'.schema = s.schema
  lists : s'.lists = s.lists

namespace SameNames

theorem refl (s : Store) : SameNames s s := ⟨rfl, rfl, rfl, rfl, rfl, rfl, rfl⟩

theorem trans (h : SameNames s s') (h' : SameNames s' s'') : SameNames s s'' :=
  ⟨h'.sources.trans h.sources, h'.documents.trans h.documents,
    h'.declarations.trans h.declarations, h'.selections.trans h.selections,
    h'.placements.trans h.placements, h'.schema.trans h.schema, h'.lists.trans h.lists⟩

theorem of_revalues (h : Revalues s s') : SameNames s s' := by
  constructor <;> rw [show s' = _ from h]

theorem setDirectives (s : Store) (site : Site) (t : DirectiveTables) :
    SameNames s (s.setDirectives site t) := by
  cases site <;> exact ⟨rfl, rfl, rfl, rfl, rfl, rfl, rfl⟩

theorem admits (h : SameNames s s') {site : Site} {owner document : Int}
    (ha : s.Admits G site owner document) : s'.Admits G site owner document := by
  cases site with
  | document => exact ha
  | declaration => trivial
  | selection => exact fun p hp => ha p (h.placements ▸ hp)

theorem isOwner (h : SameNames s s') (site : Site) (id : Int) :
    s'.isOwner site id = s.isOwner site id := by
  cases site <;> simp only [Store.isOwner, h.documents, h.declarations, h.selections]

end SameNames

theorem addValue_sameNames (s : Store) (owner? : Option Int) (p : Position)
    (expected? : Option TypeRef) (v : Value) : SameNames s (s.addValue owner? p expected? v).1 :=
  .of_revalues (addValue_revalues s owner? p expected? v)

theorem loadDirectiveArgument_sameNames (site : Site) (document use : Int) (d : Directive)
    (s : Store) (argument : String × Literal) :
    SameNames s (loadDirectiveArgument site document use d s argument) :=
  (addValue_sameNames ..).trans (.setDirectives ..)

theorem loadDirective_sameNames (site : Site) (document owner : Int) (s : Store) (d : Directive) :
    SameNames s (loadDirective site document owner s d) := by
  have marked : SameNames s (s.addDirective site ⟨owner, d.name, d.position⟩).1 :=
    .setDirectives ..
  exact List.foldlRecOn (motive := fun t => SameNames s t) d.arguments _ marked
    fun t ht a _ => ht.trans (loadDirectiveArgument_sameNames ..)

theorem loadDirectives_sameNames (site : Site) (document owner : Int) (s : Store)
    (ds : List Directive) : SameNames s (s.loadDirectives site document owner ds) :=
  List.foldlRecOn (motive := fun t => SameNames s t) ds _ (.refl s)
    fun t ht d _ => ht.trans (loadDirective_sameNames site document owner t d)

theorem loadFieldArgument_sameNames (document selection : Int) (type? : Option String)
    (p : Position) (s : Store) (argument : String × Literal) :
    SameNames s (loadFieldArgument document selection type? p s argument) :=
  (addValue_sameNames ..).trans ⟨rfl, rfl, rfl, rfl, rfl, rfl, rfl⟩

theorem foldl_loadFieldArgument_sameNames (document selection : Int) (type? : Option String)
    (p : Position) (s : Store) (as : List (String × Literal)) :
    SameNames s (as.foldl (loadFieldArgument document selection type? p) s) :=
  List.foldlRecOn (motive := fun t => SameNames s t) as _ (.refl s)
    fun t ht a _ => ht.trans (loadFieldArgument_sameNames document selection type? p t a)

section Directives

variable {site : Site} {document owner use : Int} {d : Directive}

theorem loadDirectiveArgument_ready (h : s.Ready G) (hd : s.documents.contains document)
    {u : DirectiveUse} (hu : (s.directives site).uses.get? use = some u)
    (ha : s.Admits G site u.owner document) {argument : String × Literal}
    (hw : argument.2.WellFormed) :
    (loadDirectiveArgument site document use d s argument).Ready G ∧
    ((loadDirectiveArgument site document use d s argument).directives site).uses =
      (s.directives site).uses := by
  have added := h.addValue hd d.position (s.schema.directiveArgumentType? d.name argument.1)
    ⟨_, hw, rfl⟩
  rw [loadDirectiveArgument]
  generalize s.addValue (some document) d.position _ _ = r at added ⊢
  have hu' : (r.1.directives site).uses.get? use = some u := by rwa [added.adds.directives]
  refine ⟨?_, ?_⟩
  · refine (added.ready h).addDirectiveArgument hu' added.here added.free ?_ ?_
    · exact ((SameNames.of_revalues added.adds.rest).admits ha).houses added.document
    · exact added.reads ▸ ⟨_, hw, rfl⟩
  · simp [addDirectiveArgument, added.adds.directives]

theorem foldl_loadDirectiveArgument_ready (as : List (String × Literal)) {s : Store}
    (h : s.Ready G) (hd : s.documents.contains document) {u : DirectiveUse}
    (hu : (s.directives site).uses.get? use = some u) (ha : s.Admits G site u.owner document)
    (hw : ∀ a ∈ as, a.2.WellFormed) :
    (as.foldl (loadDirectiveArgument site document use d) s).Ready G := by
  induction as generalizing s with
  | nil => exact h
  | cons a as ih =>
    have same := loadDirectiveArgument_sameNames site document use d s a
    obtain ⟨ready, uses⟩ := loadDirectiveArgument_ready (d := d) h hd hu ha
      (hw a List.mem_cons_self)
    exact ih ready (same.documents ▸ hd) (uses ▸ hu) (same.admits ha)
      fun b hb => hw b (List.mem_cons_of_mem a hb)

theorem loadDirective_ready (h : s.Ready G) (hd : s.documents.contains document)
    (ho : s.isOwner site owner) (ha : s.Admits G site owner document)
    (hw : d.WellFormed) : (loadDirective site document owner s d).Ready G := by
  have ready : (s.addDirective site ⟨owner, d.name, d.position⟩).1.Ready G := h.addDirective ho
  have same : SameNames s (s.addDirective site ⟨owner, d.name, d.position⟩).1 :=
    .setDirectives ..
  have hu : ((s.addDirective site ⟨owner, d.name, d.position⟩).1.directives site).uses.get?
      (s.directives site).uses.nextId = some ⟨owner, d.name, d.position⟩ := by
    simp [addDirective]
  exact foldl_loadDirectiveArgument_ready (d := d) d.arguments ready (same.documents ▸ hd) hu
    (same.admits ha) hw

theorem loadDirectives_ready (site : Site) (ds : List Directive) {s : Store} (h : s.Ready G)
    (hd : s.documents.contains document) (ho : s.isOwner site owner)
    (ha : s.Admits G site owner document) (hw : ∀ d ∈ ds, d.WellFormed) :
    (s.loadDirectives site document owner ds).Ready G := by
  induction ds generalizing s with
  | nil => exact h
  | cons d ds ih =>
    have same := loadDirective_sameNames site document owner s d
    exact ih (loadDirective_ready h hd ho ha (hw d List.mem_cons_self)) (same.documents ▸ hd)
      ((same.isOwner ..).trans ho) (same.admits ha) fun e he => hw e (List.mem_cons_of_mem d he)

end Directives

section Selections

variable {document selection : Int}

theorem loadFieldArgument_ready (h : s.Ready G) (hd : s.documents.contains document)
    (hx : s.selections.contains selection)
    (ha : s.Admits G .selection selection document) (type? : Option String) (p : Position)
    {argument : String × Literal} (hw : argument.2.WellFormed) :
    (loadFieldArgument document selection type? p s argument).Ready G := by
  have added := h.addValue hd p ((type?.map (Schema.idOf · argument.1)).bind s.schema.argumentType?)
    ⟨_, hw, rfl⟩
  rw [loadFieldArgument]
  generalize s.addValue (some document) p _ _ = r at added ⊢
  have same := SameNames.of_revalues added.adds.rest
  refine (added.ready h).addFieldArgument (same.selections ▸ hx) added.here added.free ?_ ?_
  · exact (same.admits ha).houses added.document
  · exact added.reads ▸ ⟨_, hw, rfl⟩

theorem foldl_loadFieldArgument_ready (type? : Option String) (p : Position)
    (as : List (String × Literal)) {s : Store} (h : s.Ready G)
    (hd : s.documents.contains document) (hx : s.selections.contains selection)
    (ha : s.Admits G .selection selection document) (hw : ∀ a ∈ as, a.2.WellFormed) :
    (as.foldl (loadFieldArgument document selection type? p) s).Ready G := by
  induction as generalizing s with
  | nil => exact h
  | cons a as ih =>
    have same := loadFieldArgument_sameNames document selection type? p s a
    exact ih (loadFieldArgument_ready h hd hx ha type? p (hw a List.mem_cons_self))
      (same.documents ▸ hd) (same.selections ▸ hx) (same.admits ha)
      fun b hb => hw b (List.mem_cons_of_mem a hb)

/-- What one document's parts do to the tables that they share with others. -/
structure Fills (s s' : Store) : Prop where
  sources : s'.sources = s.sources
  documents : s'.documents = s.documents
  schema : s'.schema = s.schema
  lists : s'.lists = s.lists
  selections : ∀ x, s.selections.contains x = true → s'.selections.contains x = true
  descents : ∀ x n, s.selections.contains x = true → Descent s'.placements n x →
    Descent s.placements n x

theorem Fills.refl (s : Store) : Fills s s :=
  ⟨rfl, rfl, rfl, rfl, fun _ hx => hx, fun _ _ _ hn => hn⟩

theorem Fills.trans (h : Fills s s') (h' : Fills s' s'') : Fills s s'' where
  sources := h'.sources.trans h.sources
  documents := h'.documents.trans h.documents
  schema := h'.schema.trans h.schema
  lists := h'.lists.trans h.lists
  selections x hx := h'.selections x (h.selections x hx)
  descents x n hx hn := h.descents x n hx (h'.descents x n (h.selections x hx) hn)

theorem SameNames.fills (h : SameNames s s') : Fills s s' :=
  ⟨h.sources, h.documents, h.schema, h.lists, fun _ hx => h.selections ▸ hx,
    fun _ _ _ hn => h.placements ▸ hn⟩

/-- What leads to a selection leaves room for so many levels below it. -/
def Leaves (s : Store) (room : Nat) (x : Int) : Prop :=
  ∀ n, Descent s.placements n x → n + room < Failure.depthLimit

theorem Fills.leaves (h : Fills s s') {room : Nat} {x : Int}
    (hx : s.selections.contains x) (hr : s.Leaves room x) : s'.Leaves room x :=
  fun n hn => hr n (h.descents x n hx hn)

theorem Sound.heldIn_of_issued_lt (h : s.Sound G) {x d : Int}
    (hx : (s.selections.issued : Int) < x) : s.HeldIn x d := by
  have absent : ∀ {y}, s.selections.contains y → y ≠ x := by
    intro y hy
    have := le_issued_of_contains hy
    omega
  refine ⟨fun a ha he => absurd he (absent (h.closed.fieldArguments a ha).1), ?_⟩
  intro id u hu he
  exact absurd he (absent ((h.closed.directives .selection).uses u (mem_rows_of_get? hu)))

theorem placeSelection_ready (h : s.Ready G) (hd : s.documents.contains document)
    {parent? : Option Int} {room : Nat} (hroom : room < Failure.depthLimit)
    (hp : ∀ x, parent? = some x → s.selections.contains x ∧ s.Leaves (room + 1) x)
    (index : Int) (p : Position) (row : SelectionRow) :
    (s.placeSelection document parent? index p row).1.Ready G ∧
    Fills s (s.placeSelection document parent? index p row).1 ∧
    (s.placeSelection document parent? index p row).1.selections.contains
      (s.placeSelection document parent? index p row).2 ∧
    (s.placeSelection document parent? index p row).1.Admits G .selection
      (s.placeSelection document parent? index p row).2 document ∧
    (s.placeSelection document parent? index p row).1.Leaves room
      (s.placeSelection document parent? index p row).2 := by
  have hnew := contains_push_nextId s.selections row
  have grow : ∀ {x}, s.selections.contains x →
      (s.selections.push row).contains x := contains_push_of_contains
  have known : ∀ {x}, s.selections.contains x → x ≠ s.selections.nextId := by
    intro x hx
    have := le_issued_of_contains hx
    have := s.selections.issued_lt_nextId
    omega
  have unplaced := fun q hq => known (h.closed.placements q hq).2.1
  -- Only what led to the parent before leads to the new selection.
  have descent : ∀ {n x}, Descent (s.placements.push ⟨parent?, s.selections.nextId, document,
      index, p⟩) n x → Descent s.placements n x ∨ x = s.selections.nextId ∧
        ∃ m y, n = m + 1 ∧ parent? = some y ∧ Descent s.placements m y := by
    intro n x hn
    exact hn.of_push (fun hx => known (hp _ hx).1 rfl)
      fun q hq hx => known ((h.closed.placements q hq).1 _ hx) rfl
  have old : ∀ n, Descent s.placements n s.selections.nextId → n = 0 := by
    rintro n hn
    generalize hx : s.selections.nextId = x at hn
    cases hn with
    | here => rfl
    | down _ hq _ => exact absurd hx.symm (unplaced _ hq)
  refine ⟨?_, ⟨rfl, rfl, rfl, rfl, fun x hx => grow hx, ?_⟩, hnew, ?_, ?_⟩
  · refine (h.addSelection row).addPlacement (fun x hx => grow (hp x hx).1) hnew hd
      (fun _ => ⟨?_, fun q hq hx => absurd hx (unplaced q hq)⟩) fun n x hn => ?_
    · exact h.toSound.heldIn_of_issued_lt s.selections.issued_lt_nextId
    · rcases descent hn with hn | ⟨_, m, y, rfl, hy, hm⟩
      · exact h.shallow n x hn
      · have := (hp y hy).2 m hm
        omega
  · exact fun x n hx hn => (descent hn).resolve_right fun he => known hx he.1
  · exact forall_rows_push.mpr ⟨fun q hq hx => absurd hx (unplaced q hq), fun _ _ => rfl⟩
  · intro n hn
    rcases descent hn with hn | ⟨_, m, y, rfl, hy, hm⟩
    · rw [old n hn]
      omega
    · have := (hp y hy).2 m hm
      omega

mutual

theorem loadSelection_ready {s : Store} (h : s.Ready G)
    (hd : s.documents.contains document) (scope? : Option String) (parent? : Option Int)
    (index : Int) : (x : Selection) → {n : Nat} → n ≤ Failure.depthLimit →
    (∀ y, parent? = some y → s.selections.contains y ∧ s.Leaves n y) → x.WellFormed n →
    (loadSelection document scope? parent? index s x).Ready G ∧
    Fills s (loadSelection document scope? parent? index s x)
  | .field p label? name arguments directives selections, _, hn, hp, hw => by
    obtain ⟨ha, hds, hs⟩ := hw
    obtain ⟨ready, fills, here, admits, leaves⟩ := placeSelection_ready h hd hn hp index p
      ⟨name, label?, .field, scope?.map (Schema.idOf · name)⟩
    rw [loadSelection]
    generalize s.placeSelection document parent? index p _ = r at ready fills here admits leaves ⊢
    have ready₁ := foldl_loadFieldArgument_ready (scope?.map (Schema.idOf · name)) p arguments ready
      (fills.documents ▸ hd) here admits ha
    have same₁ := foldl_loadFieldArgument_sameNames document r.2
      (scope?.map (Schema.idOf · name)) p r.1 arguments
    have fills₁ := fills.trans same₁.fills
    have ready₂ := loadDirectives_ready .selection directives ready₁
      (fills₁.documents ▸ hd) ((same₁.isOwner .selection _).trans here) (same₁.admits admits) hds
    have same := same₁.trans (loadDirectives_sameNames .selection document r.2 _ directives)
    have fills₂ := fills.trans same.fills
    obtain ⟨ready₃, fills₃⟩ := loadSelections_ready ready₂ (fills₂.documents ▸ hd)
      (((scope?.map (Schema.idOf · name)).bind _).map _) (some r.2) 0 selections (Nat.le_of_lt hn)
      (fun x hx => by
        cases hx
        exact ⟨same.selections ▸ here, same.fills.leaves here leaves⟩) hs
    exact ⟨ready₃, fills₂.trans fills₃⟩
  | .inline p condition? directives selections, _, hn, hp, hw => by
    obtain _ | ⟨hds, hs⟩ := hw
    obtain ⟨ready, fills, here, admits, leaves⟩ := placeSelection_ready h hd hn hp index p
      ⟨(condition?.orElse fun _ => scope?).getD "", none, .inlineFragment, none⟩
    rw [loadSelection]
    generalize s.placeSelection document parent? index p _ = r at ready fills here admits leaves ⊢
    have ready₁ := loadDirectives_ready .selection directives ready (fills.documents ▸ hd) here
      admits hds
    have same₁ := loadDirectives_sameNames .selection document r.2 r.1 directives
    have fills₁ := fills.trans same₁.fills
    obtain ⟨ready₂, fills₂⟩ := loadSelections_ready ready₁ (fills₁.documents ▸ hd)
      (condition?.orElse fun _ => scope?) (some r.2) 0 selections (Nat.le_of_lt hn)
      (fun x hx => by
        cases hx
        exact ⟨same₁.selections ▸ here, same₁.fills.leaves here leaves⟩) hs
    exact ⟨ready₂, fills₁.trans fills₂⟩
  | .spread p name directives, _, hn, hp, hw => by
    obtain _ | _ | hds := hw
    obtain ⟨ready, fills, here, admits, _⟩ := placeSelection_ready h hd hn hp index p
      ⟨name, none, .fragment, none⟩
    rw [loadSelection]
    generalize s.placeSelection document parent? index p _ = r at ready fills here admits ⊢
    exact ⟨loadDirectives_ready .selection directives ready (fills.documents ▸ hd) here admits hds,
      fills.trans (loadDirectives_sameNames ..).fills⟩

theorem loadSelections_ready {s : Store} (h : s.Ready G)
    (hd : s.documents.contains document) (scope? : Option String) (parent? : Option Int)
    (index : Int) : (xs : List Selection) → {n : Nat} → n ≤ Failure.depthLimit →
    (∀ y, parent? = some y → s.selections.contains y ∧ s.Leaves n y) →
    (∀ x ∈ xs, x.WellFormed n) →
    (loadSelections document scope? parent? index s xs).Ready G ∧
    Fills s (loadSelections document scope? parent? index s xs)
  | [], _, _, _, _ => ⟨h, .refl s⟩
  | x :: rest, _, hn, hp, hw => by
    obtain ⟨ready, fills⟩ := loadSelection_ready h hd scope? parent? index x hn hp
      (hw x List.mem_cons_self)
    obtain ⟨ready', fills'⟩ := loadSelections_ready ready (fills.documents ▸ hd) scope?
      parent? (index + 1) rest hn
      (fun y hy => ⟨fills.selections y (hp y hy).1, fills.leaves (hp y hy).1 (hp y hy).2⟩)
      fun y hy => hw y (List.mem_cons_of_mem x hy)
    exact ⟨ready', fills.trans fills'⟩

end

end Selections

/-! ## Variables and definitions -/

/-- Until documents are generated none borrows from another. -/
def NoBorrowers : Int → Prop := fun _ => False

section Definitions

variable {document : Int} {source : Source}

theorem loadEach_induction {α : Type} {step : Store → α → Store × Diagnostics} {P : Store → Prop}
    (as : List α) (hstep : ∀ t, ∀ a ∈ as, P t → P (step t a).1) {s : Store} (h : P s) :
    P (loadEach step s as).1 := by
  induction as generalizing s with
  | nil => exact h
  | cons a as ih =>
    exact ih (fun t b hb => hstep t b (List.mem_cons_of_mem a hb))
      (hstep s a List.mem_cons_self h)

/-- What is kept while the parts of a document are loaded. -/
def Filling (s t : Store) : Prop := t.Ready NoBorrowers ∧ Fills s t

theorem Filling.of (h : Filling s s') (h' : s'.Ready NoBorrowers → s''.Ready NoBorrowers ∧
    Fills s' s'') : Filling s s'' := ⟨(h' h.1).1, h.2.trans (h' h.1).2⟩

theorem declare_ready (h : s.Ready NoBorrowers) (hd : s.documents.contains document)
    (p : Position) (name label : String) (type : TypeRef) {default? : Option Value}
    (hw : ∀ v, default? = some v → v.Written) :
    (s.declare source document p name label type default?).1.Ready NoBorrowers ∧
    Fills s (s.declare source document p name label type default?).1 := by
  cases default? with
  | none => exact ⟨h.addVariable hd id nofun, rfl, rfl, rfl, rfl, fun _ hx => hx, fun _ _ _ hn => hn⟩
  | some v =>
    have added := h.addValue hd p (some type) (hw v rfl)
    simp only [declare]
    generalize s.addValue (some document) p (some type) v = r at added ⊢
    have same := SameNames.of_revalues added.adds.rest
    refine ⟨(added.ready h).addVariable (same.documents ▸ hd) id fun d hd => ?_, ?_⟩
    · cases hd
      exact ⟨added.here, added.free, added.reads ▸ hw v rfl⟩
    · exact same.fills.trans ⟨rfl, rfl, rfl, rfl, fun _ hx => hx, fun _ _ _ hn => hn⟩

theorem loadVariable_ready (h : s.Ready NoBorrowers) (hd : s.documents.contains document)
    {v : VariableDefinition} (hw : ∀ l, v.default? = some l → l.WellFormed) :
    (loadVariable source document s v).1.Ready NoBorrowers ∧
    Fills s (loadVariable source document s v).1 := by
  refine declare_ready h hd _ _ _ _ fun w hv => ?_
  obtain ⟨l, hl, rfl⟩ := Option.map_eq_some_iff.mp hv
  exact ⟨l, hw l hl, rfl⟩

theorem loadFragmentArgument_ready (h : s.Ready NoBorrowers)
    (hd : s.documents.contains document) (p : Position) {argument : String × Literal}
    (hw : argument.2.WellFormed) :
    (loadFragmentArgument source document p s argument).1.Ready NoBorrowers ∧
    Fills s (loadFragmentArgument source document p s argument).1 := by
  rw [loadFragmentArgument]
  split
  · exact ⟨h, .refl s⟩
  · have written : argument.2.toValue.Written := ⟨_, hw, rfl⟩
    exact declare_ready h hd _ _ _ _ fun v hv => written.field? hv

theorem Filling.directives (h : Filling s s') (hd : s.documents.contains document)
    {ds : List Directive} (hds : ∀ d ∈ ds, d.WellFormed) :
    Filling s (s'.loadDirectives .document document document ds) := by
  have hd' : s'.documents.contains document := h.2.documents ▸ hd
  exact h.of fun hr => ⟨loadDirectives_ready .document ds hr hd' hd' rfl hds,
    (loadDirectives_sameNames ..).fills⟩

theorem Filling.selections (h : Filling s s') (hd : s.documents.contains document)
    (scope? : Option String) {xs : List Selection} (hxs : ∀ x ∈ xs, x.WellFormed depthLimit) :
    Filling s (loadSelections document scope? none 0 s' xs) :=
  h.of fun hr =>
    loadSelections_ready hr (h.2.documents ▸ hd) scope? none 0 xs (by decide) nofun hxs

/-- What is kept while whole documents are loaded. -/
structure Loading (s t : Store) : Prop where
  ready : t.Ready NoBorrowers
  sources : t.sources = s.sources
  schema : t.schema = s.schema
  lists : t.lists = s.lists

theorem Loading.refl (h : s.Ready NoBorrowers) : Loading s s := ⟨h, rfl, rfl, rfl⟩

theorem Loading.trans (h : Loading s s') (h' : Loading s' s'') : Loading s s'' :=
  ⟨h'.ready, h'.sources.trans h.sources, h'.schema.trans h.schema, h'.lists.trans h.lists⟩

theorem loadOperation_ready (h : s.Ready NoBorrowers) {sourceId : Int}
    (hs : s.sources.contains sourceId) {o : Operation} (hw : o.WellFormed) :
    Loading s (s.loadOperation source sourceId o).1 := by
  let row : DocumentRow :=
    ⟨o.name?.getD "", sourceId, o.kind, s.schema.rootType? o.kind, o.position⟩
  have h₁ : Filling (s.addDocument row).1 (s.addDocument row).1 :=
    ⟨h.addDocument hs, .refl _⟩
  have hd : (s.addDocument row).1.documents.contains s.documents.nextId :=
    contains_push_nextId ..
  have h₂ : Filling (s.addDocument row).1
      (loadEach (loadVariable source s.documents.nextId) (s.addDocument row).1 o.declarations).1 :=
    loadEach_induction o.declarations (fun t v hv ht => ht.of fun hr =>
      loadVariable_ready hr (ht.2.documents ▸ hd) (hw.declarations v hv)) h₁
  have h₃ := h₂.directives hd hw.directives
  have h₄ := h₃.selections hd (s.schema.rootType? o.kind) hw.selections
  exact ⟨h₄.1, h₄.2.sources, h₄.2.schema, h₄.2.lists⟩

theorem loadFragment_ready (h : s.Ready NoBorrowers) {sourceId : Int}
    (hs : s.sources.contains sourceId) {f : Fragment} (hw : f.WellFormed) :
    Loading s (s.loadFragment source sourceId f).1 := by
  let row : DocumentRow := ⟨f.name, sourceId, .fragment, some f.condition, f.position⟩
  have h₁ : Filling (s.addDocument row).1 (s.addDocument row).1 :=
    ⟨h.addDocument hs, .refl _⟩
  have hd : (s.addDocument row).1.documents.contains s.documents.nextId :=
    contains_push_nextId ..
  have h₂ := h₁.directives hd hw.directives
  have h₃ : Filling (s.addDocument row).1 (loadEach (fun t d =>
      loadEach (loadFragmentArgument source s.documents.nextId d.position) t d.arguments)
      ((s.addDocument row).1.loadDirectives .document s.documents.nextId s.documents.nextId
        f.directives) (f.directives.filter (·.name == Framework.argumentsTag))).1 := by
    refine loadEach_induction _ (fun t d hm ht => ?_) h₂
    refine loadEach_induction d.arguments (fun t a ha ht => ht.of fun hr => ?_) ht
    exact loadFragmentArgument_ready hr (ht.2.documents ▸ hd) d.position
      (hw.directives d (List.mem_filter.mp hm).1 a ha)
  have h₄ := h₃.selections hd (some f.condition) hw.selections
  exact ⟨h₄.1, h₄.2.sources, h₄.2.schema, h₄.2.lists⟩

theorem loadDefinition_ready (h : s.Ready NoBorrowers) {sourceId : Int}
    (hs : s.sources.contains sourceId) {d : Definition} (hw : d.WellFormed) :
    Loading s (s.loadDefinition source sourceId d).1 := by
  cases d with
  | operation o => exact loadOperation_ready h hs hw
  | fragment f => exact loadFragment_ready h hs hw

theorem wellFormed_addArgument {argument : String × Literal} (ha : argument.2.WellFormed)
    {ds : List Directive} (hds : ∀ d ∈ ds, d.WellFormed) :
    ∀ d ∈ InlineField.addArgument argument ds, d.WellFormed := by
  induction ds with
  | nil => exact hds
  | cons d ds ih =>
    obtain ⟨hd, hds⟩ := List.forall_mem_cons.mp hds
    rw [InlineField.addArgument]
    split
    · refine List.forall_mem_cons.mpr ⟨fun a hm => ?_, hds⟩
      rcases List.mem_append.mp hm with hm | hm
      · exact hd a hm
      · exact List.mem_singleton.mp hm ▸ ha
    · exact List.forall_mem_cons.mpr ⟨hd, ih hds⟩

/-- The fragment of an inline component field is as well formed as its text. -/
theorem wellFormed_of_inlineField {ds : List Definition} (hw : ∀ d ∈ ds, d.WellFormed)
    {prop? : Option String} {f : Fragment} (h : InlineField.fragment ds prop? = .ok f) :
    f.WellFormed := by
  obtain ⟨o, ho, h⟩ := bind_eq_ok.mp h
  have hbody : o.WellFormed := by
    revert ho
    fun_cases InlineField.body ds with
    | case1 o' =>
      rintro ⟨⟩
      exact hw _ List.mem_cons_self
    | _ => exact nofun
  split at h
  · next position condition? directives selections hs =>
    have hinline := hbody.selections _ (hs ▸ List.mem_cons_self)
    cases hinline with
    | inline hds hxs =>
      cases condition? with
      | none => cases h
      | some condition =>
        simp only at h
        split at h
        · next d _ =>
          obtain ⟨field?, _, h⟩ := bind_eq_ok.mp h
          cases field? with
          | none => cases h
          | some field =>
            obtain ⟨existing?, _, h⟩ := bind_eq_ok.mp h
            cases h
            refine ⟨?_, fun x hx => (hxs x hx).mono (Nat.le_succ _)⟩
            simp only
            split
            · exact wellFormed_addArgument (.string _) hds
            · exact hds
        · cases h
  · cases h
  · cases h
  · cases h

theorem loadSource_ready (h : s.Ready NoBorrowers) {entry : Int × Source}
    (hs : s.sources.contains entry.1) : Loading s (s.loadSource entry).1 := by
  rw [loadSource]
  split
  · exact .refl h
  · next ds hp =>
    have hw := wellFormed_of_parseDocument hp
    split
    · split
      · next f hf => exact loadFragment_ready h hs (wellFormed_of_inlineField hw hf)
      · exact .refl h
    · refine loadEach_induction ds (fun t d hd ht => ?_) (.refl h)
      exact ht.trans (loadDefinition_ready ht.ready (ht.sources ▸ hs) (hw d hd))

theorem loadSources_ready (h : s.Ready NoBorrowers) : Loading s s.loadSources.1 := by
  refine loadEach_induction s.sources.entries (fun t e he ht => ?_) (.refl h)
  have hs : s.sources.contains e.1 := contains_of_get? (get?_of_mem he)
  exact ht.trans (loadSource_ready ht.ready (ht.sources ▸ hs))

end Definitions

end GraphDoc.Store
