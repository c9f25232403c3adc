import GraphDoc.Proofs.Table
import GraphDoc.Store.Tree

/-!
# Closed stores

`Store.Closed` says of every table that the rows which its rows refer to are there. It is what
`Store.closed` decides, and each write keeps it as long as what it writes refers to rows that are
there.
-/

set_option autoImplicit false

namespace GraphDoc

open Table

/-- The row that refers to a value. -/
inductive Owner where
  | argument (id : Int)
  | directive (site : Site) (id : Int)
  | default (id : Int)
  | child (id : Int)
deriving DecidableEq

def Owner.IsChild : Owner → Prop
  | .child _ => True
  | _ => False

/-- The value that an owner refers to. -/
def Store.owns (s : Store) : Owner → Option Int
  | .argument id => (s.fieldArguments.get? id).map (·.value)
  | .directive site id => ((s.directives site).arguments.get? id).map (·.value)
  | .default id => (s.declarations.get? id).bind (·.default?)
  | .child id => (s.valueLinks.get? id).map (·.value)

theorem Store.owns_argument {s : Store} {id : Int} {a : FieldArgument}
    (h : s.fieldArguments.get? id = some a) : s.owns (.argument id) = some a.value :=
  Option.map_eq_some_iff.mpr ⟨a, h, rfl⟩

theorem Store.owns_directive {s : Store} {site : Site} {id : Int} {a : DirectiveArgument}
    (h : (s.directives site).arguments.get? id = some a) :
    s.owns (.directive site id) = some a.value := Option.map_eq_some_iff.mpr ⟨a, h, rfl⟩

/-- Whether a number belongs to a row that directives of a site can stand on. -/
def Store.isOwner (s : Store) : Site → Int → Bool
  | .document => s.documents.contains
  | .declaration => s.declarations.contains
  | .selection => s.selections.contains

structure DirectiveTables.Closed (t : DirectiveTables) (isOwner isValue : Int → Bool) : Prop where
  uses : ∀ u ∈ t.uses.rows, isOwner u.owner = true
  arguments : ∀ a ∈ t.arguments.rows, t.uses.contains a.owner = true ∧ isValue a.value = true

structure Store.Closed (s : Store) : Prop where
  schema : s.schema.closed = true
  documents : ∀ d ∈ s.documents.rows, s.sources.contains d.source = true
  directives : ∀ site, (s.directives site).Closed (s.isOwner site) s.values.contains
  declarations : ∀ v ∈ s.declarations.rows, s.documents.contains v.document = true ∧
    ∀ d, v.default? = some d → s.values.contains d = true
  placements : ∀ p ∈ s.placements.rows, (∀ x, p.parent? = some x → s.selections.contains x = true) ∧
    s.selections.contains p.child = true ∧ s.documents.contains p.document = true
  fieldArguments : ∀ a ∈ s.fieldArguments.rows,
    s.selections.contains a.selection = true ∧ s.values.contains a.value = true
  values : ∀ v ∈ s.values.rows, ∀ d, v.document? = some d → s.documents.contains d = true
  valueLinks : ∀ l ∈ s.valueLinks.rows,
    s.values.contains l.parent = true ∧ s.values.contains l.value = true
  lists : ∀ l ∈ s.lists.rows, s.sources.contains l.source = true ∧
    s.documents.contains l.document = true ∧ s.selections.contains l.listField = true ∧
    s.selections.contains l.node = true
  componentFields : ∀ c ∈ s.componentFields.rows, s.documents.contains c.1 = true

namespace DirectiveTables

theorem closed_iff (t : DirectiveTables) (isOwner isValue : Int → Bool) :
    t.closed isOwner isValue ↔ t.Closed isOwner isValue := by
  simp only [closed, containsKnowing_isFull, Bool.and_eq_true, List.all_eq_true]
  exact ⟨fun h => ⟨h.1, h.2⟩, fun h => ⟨h.uses, h.arguments⟩⟩

theorem Closed.mono {t : DirectiveTables} {isOwner isOwner' isValue isValue' : Int → Bool}
    (h : t.Closed isOwner isValue) (ho : ∀ id, isOwner id → isOwner' id)
    (hv : ∀ id, isValue id → isValue' id) : t.Closed isOwner' isValue' :=
  ⟨fun u hu => ho _ (h.uses u hu), fun a ha => ⟨(h.arguments a ha).1, hv _ (h.arguments a ha).2⟩⟩

end DirectiveTables

namespace Store

variable {s : Store}

theorem option_all_iff {o : Option Int} {p : Int → Bool} :
    o.all p ↔ ∀ x, o = some x → p x := by
  cases o <;> simp

/-- The Boolean check and the proposition agree. -/
theorem closed_iff (s : Store) : s.closed ↔ s.Closed := by
  rw [closed_eq]
  simp only [closedUnder, Bool.and_eq_true, List.all_eq_true, DirectiveTables.closed_iff,
    option_all_iff]
  constructor
  · rintro ⟨⟨⟨⟨⟨⟨⟨⟨⟨⟨⟨h1, h2⟩, h3⟩, h4⟩, h5⟩, h6⟩, h7⟩, h8⟩, h9⟩, h10⟩, h11⟩, h12⟩
    refine ⟨h1, h2, ?_, h4, ?_, h8, h9, h10, ?_, h12⟩
    · intro site
      cases site with
      | document => exact h3
      | declaration => exact h5
      | selection => exact h6
    · intro p hp
      obtain ⟨⟨ha, hb⟩, hc⟩ := h7 p hp
      exact ⟨ha, hb, hc⟩
    · intro l hl
      obtain ⟨⟨⟨ha, hb⟩, hc⟩, hd⟩ := h11 l hl
      exact ⟨ha, hb, hc, hd⟩
  · intro h
    refine ⟨⟨⟨⟨⟨⟨⟨⟨⟨⟨⟨h.schema, h.documents⟩, h.directives .document⟩, h.declarations⟩,
      h.directives .declaration⟩, h.directives .selection⟩, ?_⟩, h.fieldArguments⟩, h.values⟩,
      h.valueLinks⟩, ?_⟩, h.componentFields⟩
    · intro p hp
      obtain ⟨ha, hb, hc⟩ := h.placements p hp
      exact ⟨⟨ha, hb⟩, hc⟩
    · intro l hl
      obtain ⟨ha, hb, hc, hd⟩ := h.lists l hl
      exact ⟨⟨⟨ha, hb⟩, hc⟩, hd⟩

@[simp] theorem directives_setDirectives (s : Store) (site other : Site) (t : DirectiveTables) :
    (s.setDirectives site t).directives other = if other = site then t else s.directives other := by
  cases site <;> cases other <;> rfl

@[simp] theorem isOwner_setDirectives (s : Store) (site other : Site) (t : DirectiveTables) :
    (s.setDirectives site t).isOwner other = s.isOwner other := by
  cases site <;> cases other <;> rfl

/-- Every value that is owned is there. -/
theorem Closed.contains_of_owns (h : s.Closed) {o : Owner} {v : Int} (ho : s.owns o = some v) :
    s.values.contains v := by
  cases o with
  | argument id =>
    obtain ⟨a, ha, rfl⟩ := Option.map_eq_some_iff.mp ho
    exact (h.fieldArguments a (mem_rows_of_get? ha)).2
  | directive site id =>
    obtain ⟨a, ha, rfl⟩ := Option.map_eq_some_iff.mp ho
    exact ((h.directives site).arguments a (mem_rows_of_get? ha)).2
  | default id =>
    obtain ⟨a, ha, hv⟩ := Option.bind_eq_some_iff.mp ho
    exact (h.declarations a (mem_rows_of_get? ha)).2 v hv
  | child id =>
    obtain ⟨l, hl, rfl⟩ := Option.map_eq_some_iff.mp ho
    exact (h.valueLinks l (mem_rows_of_get? hl)).2

theorem Closed.addDocument (h : s.Closed) {row : DocumentRow}
    (hs : s.sources.contains row.source) : (s.addDocument row).1.Closed := by
  have grow : ∀ {id}, s.documents.contains id →
      (s.documents.push row).contains id := contains_push_of_contains
  refine { h with documents := ?_, directives := ?_, declarations := ?_, placements := ?_,
                  values := ?_, lists := ?_, componentFields := ?_ }
  · exact forall_rows_push.mpr ⟨h.documents, hs⟩
  · intro site
    cases site with
    | document => exact (h.directives .document).mono (fun _ => grow) fun _ => id
    | declaration => exact h.directives .declaration
    | selection => exact h.directives .selection
  · exact fun v hv => ⟨grow (h.declarations v hv).1, (h.declarations v hv).2⟩
  · intro p hp
    obtain ⟨ha, hb, hc⟩ := h.placements p hp
    exact ⟨ha, hb, grow hc⟩
  · exact fun v hv d hd => grow (h.values v hv d hd)
  · intro l hl
    obtain ⟨ha, hb, hc⟩ := h.lists l hl
    exact ⟨ha, grow hb, hc⟩
  · exact fun c hc => grow (h.componentFields c hc)

theorem Closed.addVariable (h : s.Closed) {row : VariableRow}
    (hd : s.documents.contains row.document)
    (hv : ∀ d, row.default? = some d → s.values.contains d) :
    (s.addVariable row).1.Closed := by
  refine { h with directives := ?_
                  declarations := forall_rows_push.mpr ⟨h.declarations, hd, hv⟩ }
  intro site
  cases site with
  | document => exact h.directives .document
  | declaration =>
    exact (h.directives .declaration).mono (fun _ => contains_push_of_contains) fun _ => id
  | selection => exact h.directives .selection

theorem Closed.addSelection (h : s.Closed) (row : SelectionRow) :
    (s.addSelection row).1.Closed := by
  have grow : ∀ {id}, s.selections.contains id →
      (s.selections.push row).contains id := contains_push_of_contains
  refine { h with directives := ?_, placements := ?_, fieldArguments := ?_, lists := ?_ }
  · intro site
    cases site with
    | document => exact h.directives .document
    | declaration => exact h.directives .declaration
    | selection => exact (h.directives .selection).mono (fun _ => grow) fun _ => id
  · intro p hp
    obtain ⟨ha, hb, hc⟩ := h.placements p hp
    exact ⟨fun x hx => grow (ha x hx), grow hb, hc⟩
  · exact fun a ha => ⟨grow (h.fieldArguments a ha).1, (h.fieldArguments a ha).2⟩
  · intro l hl
    obtain ⟨ha, hb, hc, hd⟩ := h.lists l hl
    exact ⟨ha, hb, grow hc, grow hd⟩

theorem Closed.addPlacement (h : s.Closed) {row : Placement}
    (hp : ∀ x, row.parent? = some x → s.selections.contains x)
    (hc : s.selections.contains row.child)
    (hd : s.documents.contains row.document) : (s.addPlacement row).1.Closed :=
  { h with placements := forall_rows_push.mpr ⟨h.placements, hp, hc, hd⟩ }

theorem Closed.addFieldArgument (h : s.Closed) {row : FieldArgument}
    (hx : s.selections.contains row.selection) (hv : s.values.contains row.value) :
    (s.addFieldArgument row).1.Closed :=
  { h with fieldArguments := forall_rows_push.mpr ⟨h.fieldArguments, hx, hv⟩ }

/-- A table of values will do if it has those that are owned or have children. -/
theorem Closed.withValues (h : s.Closed) {values : Table ValueRow}
    (owned : ∀ o v, s.owns o = some v → values.contains v)
    (parents : ∀ l ∈ s.valueLinks.rows, values.contains l.parent)
    (hv : ∀ v ∈ values.rows, ∀ d, v.document? = some d → s.documents.contains d) :
    Closed { s with values := values } := by
  have hd : ∀ site, (s.directives site).Closed (s.isOwner site) values.contains := by
    refine fun site => ⟨(h.directives site).uses, fun a ha => ?_⟩
    obtain ⟨id, hid⟩ := mem_rows_iff.mp ha
    refine ⟨((h.directives site).arguments a ha).1, owned (.directive site id) a.value ?_⟩
    exact Option.map_eq_some_iff.mpr ⟨a, hid, rfl⟩
  refine { h with directives := hd, declarations := ?_, fieldArguments := ?_, values := hv,
                  valueLinks := ?_ }
  · intro v hm
    obtain ⟨id, hid⟩ := mem_rows_iff.mp hm
    refine ⟨(h.declarations v hm).1, fun d hd => owned (.default id) d ?_⟩
    exact Option.bind_eq_some_iff.mpr ⟨v, hid, hd⟩
  · intro a ha
    obtain ⟨id, hid⟩ := mem_rows_iff.mp ha
    refine ⟨(h.fieldArguments a ha).1, owned (.argument id) a.value ?_⟩
    exact Option.map_eq_some_iff.mpr ⟨a, hid, rfl⟩
  · intro l hl
    obtain ⟨id, hid⟩ := mem_rows_iff.mp hl
    refine ⟨parents l hl, owned (.child id) l.value ?_⟩
    exact Option.map_eq_some_iff.mpr ⟨l, hid, rfl⟩

theorem Closed.addValueRow (h : s.Closed) {row : ValueRow}
    (hd : ∀ d, row.document? = some d → s.documents.contains d) :
    (s.addValueRow row).1.Closed :=
  h.withValues (fun _ _ ho => contains_push_of_contains (h.contains_of_owns ho))
    (fun l hl => contains_push_of_contains (h.valueLinks l hl).1)
    (forall_rows_push.mpr ⟨h.values, hd⟩)

theorem Closed.addValueLink (h : s.Closed) {row : ValueLink}
    (hp : s.values.contains row.parent) (hv : s.values.contains row.value) :
    (s.addValueLink row).1.Closed :=
  { h with valueLinks := forall_rows_push.mpr ⟨h.valueLinks, hp, hv⟩ }

/-- Other directives at one site do not matter to the rest. -/
theorem Closed.setDirectives (h : s.Closed) {site : Site} {t : DirectiveTables}
    (ht : t.Closed (s.isOwner site) s.values.contains) : (s.setDirectives site t).Closed := by
  have hd : ∀ other, ((s.setDirectives site t).directives other).Closed (s.isOwner other)
      s.values.contains := by
    intro other
    rw [directives_setDirectives]
    split
    · next he => exact he ▸ ht
    · exact h.directives other
  cases site <;> exact { h with directives := fun other => by cases other <;> exact hd _ }

theorem Closed.addDirective (h : s.Closed) {site : Site} {row : DirectiveUse}
    (ho : s.isOwner site row.owner) : (s.addDirective site row).1.Closed := by
  refine h.setDirectives ⟨forall_rows_push.mpr ⟨(h.directives site).uses, ho⟩, ?_⟩
  intro a ha
  obtain ⟨hu, hv⟩ := (h.directives site).arguments a ha
  exact ⟨contains_push_of_contains hu, hv⟩

theorem Closed.addDirectiveArgument (h : s.Closed) {site : Site} {row : DirectiveArgument}
    (hu : (s.directives site).uses.contains row.owner)
    (hv : s.values.contains row.value) : (s.addDirectiveArgument site row).1.Closed :=
  h.setDirectives ⟨(h.directives site).uses,
    forall_rows_push.mpr ⟨(h.directives site).arguments, hu, hv⟩⟩

/-- A table of selections with the same numbers will do. -/
theorem Closed.withSelections (h : s.Closed) {selections : Table SelectionRow}
    (hc : ∀ id, selections.contains id = s.selections.contains id) :
    Closed { s with selections := selections } := by
  refine { h with directives := ?_, placements := ?_, fieldArguments := ?_, lists := ?_ }
  · intro site
    cases site with
    | document => exact h.directives .document
    | declaration => exact h.directives .declaration
    | selection => exact (h.directives .selection).mono (fun x hx => (hc x).trans hx) fun _ => id
  · simpa only [hc] using h.placements
  · simpa only [hc] using h.fieldArguments
  · simpa only [hc] using h.lists

/-- A table of documents with the same numbers and sources will do. -/
theorem Closed.withDocuments (h : s.Closed) {documents : Table DocumentRow}
    (hc : ∀ id, documents.contains id = s.documents.contains id)
    (hs : ∀ d ∈ documents.rows, s.sources.contains d.source) :
    Closed { s with documents := documents } := by
  refine { h with documents := hs, directives := ?_, declarations := ?_, placements := ?_,
                  values := ?_, lists := ?_, componentFields := ?_ }
  · intro site
    cases site with
    | document => exact (h.directives .document).mono (fun x hx => (hc x).trans hx) fun _ => id
    | declaration => exact h.directives .declaration
    | selection => exact h.directives .selection
  · simpa only [hc] using h.declarations
  · simpa only [hc] using h.placements
  · simpa only [hc] using h.values
  · simpa only [hc] using h.lists
  · simpa only [hc] using h.componentFields

/-- A table of declarations with the same numbers will do. -/
theorem Closed.withDeclarations (h : s.Closed) {declarations : Table VariableRow}
    (hc : ∀ id, declarations.contains id = s.declarations.contains id)
    (hd : ∀ v ∈ declarations.rows, s.documents.contains v.document ∧
      ∀ d, v.default? = some d → s.values.contains d) :
    Closed { s with declarations := declarations } := by
  refine { h with declarations := hd, directives := ?_ }
  intro site
  cases site with
  | document => exact h.directives .document
  | declaration =>
    exact (h.directives .declaration).mono (fun x hx => (hc x).trans hx) fun _ => id
  | selection => exact h.directives .selection

/-- Only documents that are there declare variables. -/
theorem Closed.variablesOf_eq_nil (h : s.Closed) {d : Int}
    (hd : (s.documents.issued : Int) < d) : s.variablesOf d = [] := by
  refine List.filter_eq_nil_iff.mpr fun v hv => ?_
  have hm := mem_rows_of_get? (get?_of_mem hv)
  have := le_issued_of_contains (h.declarations v.2 hm).1
  simp only [decide_eq_true_eq]
  omega

end Store

end GraphDoc
