import GraphDoc.Proofs.Except
import GraphDoc.Proofs.Store.Growth

/-!
# Stores that get rows

`Store.Appends a b s t` says that `t` is `s` with more rows, none of which is put on a row whose
number was given out after `a` and up to `b`. What stands on such a row reads the same in both
stores. `Store.Writes` says what a writer adds to the rows that stand at some place, and that every
store which puts nothing on them later reads them as meant.
-/

set_option autoImplicit false

namespace GraphDoc

open Table

namespace Value

mutual

/-- How many levels a value has. -/
def height : Value → Nat
  | node _ _ children => heightAll children + 1

def heightAll : List (Option String × Value) → Nat
  | [] => 0
  | (_, v) :: rest => max v.height (heightAll rest)

end

end Value

namespace Store

/-- A number from before or after a range of them. -/
def Clear (low high : Nat) (id : Int) : Prop := id ≤ low ∨ (high : Int) < id

theorem Clear.mono {low low' high high' : Nat} {id : Int} (h : Clear low high id)
    (hl : low ≤ low') (hh : high' ≤ high) : Clear low' high' id := by
  unfold Clear at h ⊢
  omega

theorem not_clear {α : Type} {t : Table α} {id : Int} (h : t.contains id) :
    ¬ Clear 0 t.issued id := by
  obtain ⟨a, ha⟩ := contains_iff.mp h
  have := t.bounded _ (mem_of_get? ha)
  unfold Clear
  simp only at this
  omega

/-- The ways in which a row is put on another one: a document on its source, a variable on its
document, a placement at the root of a document or below a selection, an argument on a field, a
directive on its owner, an argument on a directive and a link on the parent value. -/
inductive Seat where
  | document | variable | root | below | argument | directive (site : Site)
  | directiveArgument (site : Site) | link
deriving DecidableEq

/-- For each way, the last number given to a row that rows are put on. -/
def marks (s : Store) : Seat → Nat
  | .document => s.sources.issued
  | .variable | .root => s.documents.issued
  | .below | .argument => s.selections.issued
  | .directive .document => s.documents.issued
  | .directive .declaration => s.declarations.issued
  | .directive .selection => s.selections.issued
  | .directiveArgument site => (s.directives site).uses.issued
  | .link => s.values.issued

/-- The marks of a store without rows. -/
abbrev unmarked : Seat → Nat := fun _ => 0

/-- The marks of `s`, but for one way those of `t`. -/
def marksAt (k : Seat) (s t : Store) : Seat → Nat := fun j => if j = k then t.marks j else s.marks j

theorem marksAt_le {s t r : Store} (hs : ∀ k, s.marks k ≤ r.marks k)
    (ht : ∀ k, t.marks k ≤ r.marks k) (k j : Seat) : marksAt k s t j ≤ r.marks j := by
  unfold marksAt
  split
  · exact ht j
  · exact hs j

/-- A placement in a later document, or else at a place that is not in the range. -/
def ClearPlace (a b : Seat → Nat) (document : Int) (parent? : Option Int) : Prop :=
  (b .root : Int) < document ∨ (∀ x, parent? = some x → Clear (a .below) (b .below) x) ∧
    (parent? = none → document ≤ a .root)

theorem ClearPlace.mono {a a' b b' : Seat → Nat} {document : Int} {parent? : Option Int}
    (h : ClearPlace a b document parent?) (ha : ∀ k, a k ≤ a' k) (hb : ∀ k, b' k ≤ b k) :
    ClearPlace a' b' document parent? := by
  have := ha .root
  have := hb .root
  rcases h with h | ⟨below, root⟩
  · exact .inl (by omega)
  · refine .inr ⟨fun x hx => (below x hx).mono (ha _) (hb _), fun hn => ?_⟩
    have := root hn
    omega

theorem not_clearPlace {s : Store} {document : Int} {parent? : Option Int}
    (hd : s.documents.contains document)
    (hp : ∀ x, parent? = some x → s.selections.contains x) :
    ¬ ClearPlace unmarked s.marks document parent? := by
  have hd := not_clear hd
  rintro (h | ⟨below, root⟩)
  · exact hd (.inr h)
  · cases parent? with
    | none => exact hd (.inl (root rfl))
    | some x => exact not_clear (hp x rfl) (below x rfl)

theorem clearPlace_of_contains {s : Store} {document : Int} {parent? : Option Int}
    (hd : s.documents.contains document)
    (hp : ∀ x, parent? = some x → s.selections.contains x) (b : Seat → Nat) :
    ClearPlace s.marks b document parent? :=
  .inr ⟨fun x hx => .inl (le_issued_of_contains (hp x hx)),
    fun _ => le_issued_of_contains hd⟩

theorem not_clear_directive {s : Store} {site : Site} {owner : Int}
    (h : s.isOwner site owner) : ¬ Clear 0 (s.marks (.directive site)) owner := by
  cases site <;> exact not_clear h

theorem le_marks_of_isOwner {s : Store} {site : Site} {owner : Int}
    (h : s.isOwner site owner) : owner ≤ s.marks (.directive site) := by
  cases site <;> exact le_issued_of_contains h

/-- `t` is `s` with more rows, which are put on rows from before `a` or after `b`. -/
structure Appends (a b : Seat → Nat) (s t : Store) : Prop where
  closed : s.Closed → t.Closed
  schema : t.schema = s.schema
  sources : t.sources = s.sources
  lists : t.lists = s.lists
  componentFields : t.componentFields = s.componentFields
  defaultKeys? : t.defaultKeys? = s.defaultKeys?
  typeConfigs : t.typeConfigs = s.typeConfigs
  documents : Table.Grows (fun d => Clear (a .document) (b .document) d.source) s.documents
    t.documents
  declarations : Table.Grows (fun v => Clear (a .variable) (b .variable) v.document)
    s.declarations t.declarations
  uses : ∀ site, Table.Grows (fun u => Clear (a (.directive site)) (b (.directive site)) u.owner)
    (s.directives site).uses (t.directives site).uses
  arguments : ∀ site, Table.Grows (fun x => Clear (a (.directiveArgument site))
    (b (.directiveArgument site)) x.owner) (s.directives site).arguments
    (t.directives site).arguments
  selections : Table.Grows (fun _ => True) s.selections t.selections
  placements : Table.Grows (fun p => ClearPlace a b p.document p.parent?) s.placements t.placements
  fieldArguments : Table.Grows (fun x => Clear (a .argument) (b .argument) x.selection)
    s.fieldArguments t.fieldArguments
  values : Table.Grows (fun _ => True) s.values t.values
  valueLinks : Table.Grows (fun l => Clear (a .link) (b .link) l.parent)
    s.valueLinks t.valueLinks

namespace Appends

variable {a a' b b' : Seat → Nat} {s t r : Store}

theorem refl (a b : Seat → Nat) (s : Store) : Appends a b s s :=
  ⟨fun h => h, rfl, rfl, rfl, rfl, rfl, rfl, .refl, .refl, fun _ => .refl, fun _ => .refl, .refl,
    .refl, .refl, .refl, .refl⟩

theorem marks_le (h : Appends a b s t) : ∀ k, s.marks k ≤ t.marks k
  | .document => Nat.le_of_eq (congrArg issued h.sources.symm)
  | .variable | .root | .directive .document => h.documents.issued_le
  | .below | .argument | .directive .selection => h.selections.issued_le
  | .directive .declaration => h.declarations.issued_le
  | .directiveArgument site => (h.uses site).issued_le
  | .link => h.values.issued_le

theorem mono (h : Appends a b s t) (ha : ∀ k, a k ≤ a' k) (hb : ∀ k, b' k ≤ b k) :
    Appends a' b' s t :=
  { h with
    documents := h.documents.mono fun _ hd => hd.mono (ha _) (hb _)
    declarations := h.declarations.mono fun _ hv => hv.mono (ha _) (hb _)
    uses := fun site => (h.uses site).mono fun _ hu => hu.mono (ha _) (hb _)
    arguments := fun site => (h.arguments site).mono fun _ hx => hx.mono (ha _) (hb _)
    placements := h.placements.mono fun _ hp => hp.mono ha hb
    fieldArguments := h.fieldArguments.mono fun _ hx => hx.mono (ha _) (hb _)
    valueLinks := h.valueLinks.mono fun _ hl => hl.mono (ha _) (hb _) }

theorem raise (h : Appends a b s t) (ha : ∀ k, a k ≤ a' k) : Appends a' b s t :=
  h.mono ha fun _ => Nat.le_refl _

theorem lower (h : Appends a b s t) (hb : ∀ k, b' k ≤ b k) : Appends a b' s t :=
  h.mono (fun _ => Nat.le_refl _) hb

theorem trans (h : Appends a b s t) (h' : Appends a b t r) : Appends a b s r where
  closed hs := h'.closed (h.closed hs)
  schema := h'.schema.trans h.schema
  sources := h'.sources.trans h.sources
  lists := h'.lists.trans h.lists
  componentFields := h'.componentFields.trans h.componentFields
  defaultKeys? := h'.defaultKeys?.trans h.defaultKeys?
  typeConfigs := h'.typeConfigs.trans h.typeConfigs
  documents := h.documents.trans h'.documents
  declarations := h.declarations.trans h'.declarations
  uses site := (h.uses site).trans (h'.uses site)
  arguments site := (h.arguments site).trans (h'.arguments site)
  selections := h.selections.trans h'.selections
  placements := h.placements.trans h'.placements
  fieldArguments := h.fieldArguments.trans h'.fieldArguments
  values := h.values.trans h'.values
  valueLinks := h.valueLinks.trans h'.valueLinks

/-! ## One more row -/

theorem addDocument (h : Appends a b s t) (row : DocumentRow)
    (hs : t.sources.contains row.source)
    (free : Clear (a .document) (b .document) row.source) : Appends a b s (t.addDocument row).1 :=
  { h with
    closed := fun hc => (h.closed hc).addDocument hs
    documents := .push h.documents free
    uses := fun site => by cases site <;> exact h.uses _
    arguments := fun site => by cases site <;> exact h.arguments _ }

theorem addVariable (h : Appends a b s t) {row : VariableRow}
    (hd : t.documents.contains row.document)
    (hv : ∀ d, row.default? = some d → t.values.contains d)
    (free : Clear (a .variable) (b .variable) row.document) :
    Appends a b s (t.addVariable row).1 :=
  { h with
    closed := fun hc => (h.closed hc).addVariable hd hv
    declarations := .push h.declarations free
    uses := fun site => by cases site <;> exact h.uses _
    arguments := fun site => by cases site <;> exact h.arguments _ }

theorem addSelection (h : Appends a b s t) (row : SelectionRow) :
    Appends a b s (t.addSelection row).1 :=
  { h with
    closed := fun hc => (h.closed hc).addSelection row
    selections := .push h.selections trivial
    uses := fun site => by cases site <;> exact h.uses _
    arguments := fun site => by cases site <;> exact h.arguments _ }

theorem addPlacement (h : Appends a b s t) {row : Placement}
    (hp : ∀ x, row.parent? = some x → t.selections.contains x)
    (hc : t.selections.contains row.child)
    (hd : t.documents.contains row.document)
    (free : ClearPlace a b row.document row.parent?) : Appends a b s (t.addPlacement row).1 :=
  { h with
    closed := fun hs => (h.closed hs).addPlacement hp hc hd
    placements := .push h.placements free
    uses := fun site => by cases site <;> exact h.uses _
    arguments := fun site => by cases site <;> exact h.arguments _ }

theorem addFieldArgument (h : Appends a b s t) {row : FieldArgument}
    (hx : t.selections.contains row.selection) (hv : t.values.contains row.value)
    (free : Clear (a .argument) (b .argument) row.selection) :
    Appends a b s (t.addFieldArgument row).1 :=
  { h with
    closed := fun hc => (h.closed hc).addFieldArgument hx hv
    fieldArguments := .push h.fieldArguments free
    uses := fun site => by cases site <;> exact h.uses _
    arguments := fun site => by cases site <;> exact h.arguments _ }

theorem addValueRow (h : Appends a b s t) (row : ValueRow)
    (hd : ∀ d, row.document? = some d → t.documents.contains d) :
    Appends a b s (t.addValueRow row).1 :=
  { h with
    closed := fun hc => (h.closed hc).addValueRow hd
    values := .push h.values trivial
    uses := fun site => by cases site <;> exact h.uses _
    arguments := fun site => by cases site <;> exact h.arguments _ }

theorem addValueLink (h : Appends a b s t) (row : ValueLink)
    (hp : t.values.contains row.parent) (hv : t.values.contains row.value)
    (free : Clear (a .link) (b .link) row.parent) :
    Appends a b s (t.addValueLink row).1 :=
  { h with
    closed := fun hc => (h.closed hc).addValueLink hp hv
    valueLinks := .push h.valueLinks free
    uses := fun site => by cases site <;> exact h.uses _
    arguments := fun site => by cases site <;> exact h.arguments _ }

theorem addDirective (h : Appends a b s t) {site : Site} (row : DirectiveUse)
    (ho : t.isOwner site row.owner)
    (free : Clear (a (.directive site)) (b (.directive site)) row.owner) :
    Appends a b s (t.addDirective site row).1 := by
  cases site <;>
  exact { h with
    closed := fun hc => (h.closed hc).addDirective ho
    uses := fun other => by
      cases other <;> first | exact h.uses _ | exact .push (h.uses _) free
    arguments := fun other => by cases other <;> exact h.arguments _ }

theorem addDirectiveArgument (h : Appends a b s t) {site : Site} {row : DirectiveArgument}
    (hu : (t.directives site).uses.contains row.owner)
    (hv : t.values.contains row.value)
    (free : Clear (a (.directiveArgument site)) (b (.directiveArgument site)) row.owner) :
    Appends a b s (t.addDirectiveArgument site row).1 := by
  cases site <;>
  exact { h with
    closed := fun hc => (h.closed hc).addDirectiveArgument hu hv
    uses := fun other => by cases other <;> exact h.uses _
    arguments := fun other => by
      cases other <;> first | exact h.arguments _ | exact .push (h.arguments _) free }

/-! ## What the new rows leave as it was -/

theorem documents_eq (h : Appends a b s t) (ht : t.Closed) (ha : a .document = 0)
    (hb : s.sources.issued ≤ b .document) : t.documents = s.documents := by
  refine h.documents.eq_of_not fun d hd free => ?_
  have hc := not_clear (h.sources ▸ ht.documents d hd)
  rw [ha] at free
  exact hc (free.mono (Nat.le_refl _) hb)

theorem isOwner (h : Appends a b s t) {site : Site} {id : Int} (ho : s.isOwner site id) :
    t.isOwner site id := by
  cases site with
  | document => exact h.documents.contains ho
  | declaration => exact h.declarations.contains ho
  | selection => exact h.selections.contains ho

theorem linksOf (h : Appends a b s t) {id : Int}
    (hid : ¬ Clear (a .link) (b .link) id) : t.linksOf id = s.linksOf id := by
  refine h.valueLinks.filter_entries (q := fun l => decide (l.parent = id)) fun l hl => ?_
  exact decide_eq_false fun he => hid (he ▸ hl)

theorem argumentRows (h : Appends a b s t) {id : Int}
    (hid : ¬ Clear (a .argument) (b .argument) id) :
    t.argumentRows id = s.argumentRows id := by
  refine h.fieldArguments.filter_entries (q := fun x => decide (x.selection = id)) fun x hx => ?_
  exact decide_eq_false fun he => hid (he ▸ hx)

theorem usesOf (h : Appends a b s t) {site : Site} {id : Int}
    (hid : ¬ Clear (a (.directive site)) (b (.directive site)) id) :
    (t.directives site).usesOf id = (s.directives site).usesOf id := by
  refine (h.uses site).filter_entries (q := fun u => decide (u.owner = id)) fun u hu => ?_
  exact decide_eq_false fun he => hid (he ▸ hu)

theorem argumentsOf (h : Appends a b s t) {site : Site} {id : Int}
    (hid : ¬ Clear (a (.directiveArgument site)) (b (.directiveArgument site)) id) :
    (t.directives site).argumentsOf id = (s.directives site).argumentsOf id := by
  refine (h.arguments site).filter_entries (q := fun x => decide (x.owner = id)) fun x hx => ?_
  exact decide_eq_false fun he => hid (he ▸ hx)

theorem variablesOf (h : Appends a b s t) {id : Int}
    (hid : ¬ Clear (a .variable) (b .variable) id) :
    t.variablesOf id = s.variablesOf id := by
  refine h.declarations.filter_entries (q := fun v => decide (v.document = id)) fun v hv => ?_
  exact decide_eq_false fun he => hid (he ▸ hv)

end Appends

/-! ## Values -/

variable {s : Store} {owner? : Option Int}

theorem Closed.linksOf_eq_nil (h : s.Closed) {id : Int} (hid : (s.values.issued : Int) < id) :
    s.linksOf id = [] := by
  refine List.filter_eq_nil_iff.mpr fun l hl => ?_
  have hm := mem_rows_of_get? (get?_of_mem hl)
  have := le_issued_of_contains (h.valueLinks l.2 hm).1
  simp only [decide_eq_true_eq]
  omega

theorem addValue_snd (s : Store) (owner? : Option Int) (p : Position) (expected? : Option TypeRef)
    (v : Value) : (s.addValue owner? p expected? v).2 = s.values.nextId := by
  cases v
  rw [addValue_node]

mutual

theorem Appends.addValue {a b : Seat → Nat} {s₀ s : Store} (h : Appends a b s₀ s)
    (hb : ∀ k, b k ≤ s.marks k)
    (ho : ∀ d, owner? = some d → s.documents.contains d) (p : Position)
    (expected? : Option TypeRef) : (v : Value) →
    Appends a b s₀ (s.addValue owner? p expected? v).1 ∧
    (s.addValue owner? p expected? v).1.values.contains s.values.nextId
  | .node kind raw children => by
    rw [addValue_node]
    have added := h.addValueRow ⟨kind, raw, expected?, owner?, p⟩ ho
    have new := (Appends.refl unmarked s.marks s).addValueRow
      ⟨kind, raw, expected?, owner?, p⟩ ho
    have here : (s.addValueRow ⟨kind, raw, expected?, owner?, p⟩).1.values.contains
        s.values.nextId := contains_push_nextId ..
    have := hb .link
    have hlt : (s.marks .link : Int) < s.values.nextId := s.values.issued_lt_nextId
    exact added.addChildren (fun k => Nat.le_trans (hb k) (new.marks_le k)) ho p expected? here (.inr (by omega)) children

theorem Appends.addChildren {a b : Seat → Nat} {s₀ s : Store} (h : Appends a b s₀ s)
    (hb : ∀ k, b k ≤ s.marks k)
    (ho : ∀ d, owner? = some d → s.documents.contains d) (p : Position)
    (expected? : Option TypeRef) {parent : Int} (hp : s.values.contains parent)
    (free : Clear (a .link) (b .link) parent) :
    (cs : List (Option String × Value)) →
    Appends a b s₀ (s.addChildren owner? p expected? parent cs) ∧
    (s.addChildren owner? p expected? parent cs).values.contains parent
  | [] => ⟨h, hp⟩
  | (name?, v) :: rest => by
    obtain ⟨added, here⟩ := h.addValue hb ho p (expectedChild s.schema expected? name?) v
    obtain ⟨new, _⟩ := (Appends.refl s.marks s.marks s).addValue (fun _ => Nat.le_refl _) ho p
      (expectedChild s.schema expected? name?) v
    rw [addChildren_cons, addValue_snd]
    generalize s.addValue owner? p (expectedChild s.schema expected? name?) v = r at *
    have hp₁ := new.values.contains hp
    have linked := new.addValueLink ⟨parent, s.values.nextId, name?, p⟩ hp₁ here
      (.inl (le_issued_of_contains hp))
    exact (added.addValueLink _ hp₁ here free).addChildren (fun k => Nat.le_trans (hb k) (linked.marks_le k))
      (fun d hd => linked.documents.contains (ho d hd)) p expected? hp₁ free rest

end

mutual

theorem height_le_size (s : Store) (owner? : Option Int) (p : Position)
    (expected? : Option TypeRef) : (v : Value) →
    s.values.size + v.height ≤ (s.addValue owner? p expected? v).1.values.size
  | .node kind raw children => by
    have := heightAll_le_size (s.addValueRow ⟨kind, raw, expected?, owner?, p⟩).1 owner? p
      expected? s.values.nextId children
    rw [addValue_node]
    simp only [Value.height, Store.addValueRow, size, entries_push, List.length_append,
      List.length_singleton] at this ⊢
    omega

theorem heightAll_le_size (s : Store) (owner? : Option Int) (p : Position)
    (expected? : Option TypeRef) (parent : Int) : (cs : List (Option String × Value)) →
    s.values.size + Value.heightAll cs ≤
      (s.addChildren owner? p expected? parent cs).values.size
  | [] => Nat.le_refl _
  | (name?, v) :: rest => by
    have first := height_le_size s owner? p (expectedChild s.schema expected? name?) v
    rw [addChildren_cons, Value.heightAll]
    generalize s.addValue owner? p (expectedChild s.schema expected? name?) v = r at *
    have others := heightAll_le_size (r.1.addValueLink ⟨parent, r.2, name?, p⟩).1 owner? p
      expected? parent rest
    have : (r.1.addValueLink ⟨parent, r.2, name?, p⟩).1.values.size = r.1.values.size := rfl
    omega

end

mutual

theorem addValue_reads {s : Store} (hs : s.Closed)
    (ho : ∀ d, owner? = some d → s.documents.contains d) (p : Position)
    (expected? : Option TypeRef) : (v : Value) → ∀ t,
    Appends s.marks (s.addValue owner? p expected? v).1.marks (s.addValue owner? p expected? v).1 t →
    ∀ n, v.height ≤ n → t.valueWithin n s.values.nextId = .ok v
  | .node kind raw children, t, later, n, hn => by
    rw [addValue_node] at later
    simp only at later
    have added := (Appends.refl unmarked s.marks s).addValueRow
      ⟨kind, raw, expected?, owner?, p⟩ ho
    have here : (s.addValueRow ⟨kind, raw, expected?, owner?, p⟩).1.values.get? s.values.nextId =
        some ⟨kind, raw, expected?, owner?, p⟩ := get?_push_nextId ..
    have new : (s.marks .link : Int) < s.values.nextId := s.values.issued_lt_nextId
    have nothing : (s.addValueRow ⟨kind, raw, expected?, owner?, p⟩).1.linksOf s.values.nextId =
        [] := hs.linksOf_eq_nil new
    have ho₁ : ∀ d, owner? = some d →
      (s.addValueRow ⟨kind, raw, expected?, owner?, p⟩).1.documents.contains d := ho
    generalize (s.addValueRow ⟨kind, raw, expected?, owner?, p⟩).1 = s₁ at *
    obtain ⟨ls, links, reads⟩ := addChildren_reads (added.closed hs) ho₁ p expected?
      (contains_of_get? here) children
    obtain ⟨grown, there⟩ := (Appends.refl s₁.marks s₁.marks s₁).addChildren (fun _ => Nat.le_refl _) ho₁ p expected?
      (contains_of_get? here) (.inl (le_issued here)) children
    obtain ⟨m, rfl⟩ : ∃ m, n = m + 1 := ⟨n - 1, by rw [Value.height] at hn; omega⟩
    have row := later.values.get?_of_get? (grown.values.get?_of_get? here)
    have same := @Appends.linksOf _ _ _ _ later s.values.nextId (by
      have : s.values.nextId ≤ (Store.marks _ .link : Nat) := le_issued_of_contains there
      unfold Clear
      omega)
    rw [links, nothing, List.nil_append] at same
    rw [valueWithin, row]
    simp only [same, reads t (later.raise added.marks_le) m
      (by rw [Value.height] at hn; omega)]
    rfl

theorem addChildren_reads {s : Store} (hs : s.Closed)
    (ho : ∀ d, owner? = some d → s.documents.contains d) (p : Position)
    (expected? : Option TypeRef) {parent : Int} (hp : s.values.contains parent) :
    (cs : List (Option String × Value)) →
    ∃ ls, (s.addChildren owner? p expected? parent cs).linksOf parent = s.linksOf parent ++ ls ∧
      ∀ t, Appends s.marks (s.addChildren owner? p expected? parent cs).marks
        (s.addChildren owner? p expected? parent cs) t →
      ∀ n, Value.heightAll cs ≤ n →
      ls.mapM (fun link => do return (link.2.name?, ← t.valueWithin n link.2.value)) = .ok cs
  | [] => ⟨[], (List.append_nil _).symm, fun _ _ _ _ => rfl⟩
  | (name?, v) :: rest => by
    have first := addValue_reads hs ho p (expectedChild s.schema expected? name?) v
    obtain ⟨added, here⟩ := (Appends.refl unmarked s.marks s).addValue (fun _ => Nat.le_refl _) ho p
      (expectedChild s.schema expected? name?) v
    rw [addChildren_cons, addValue_snd]
    generalize s.addValue owner? p (expectedChild s.schema expected? name?) v = r at *
    have hp₁ := added.values.contains hp
    have old : parent ≤ s.values.issued := le_issued_of_contains hp
    -- The first child is complete before its link comes.
    have linked := (Appends.refl s.marks r.1.marks r.1).addValueLink
      ⟨parent, s.values.nextId, name?, p⟩ hp₁ here (.inl old)
    have links₁ : (r.1.addValueLink ⟨parent, s.values.nextId, name?, p⟩).1.linksOf parent =
        s.linksOf parent ++ [(r.1.valueLinks.nextId, ⟨parent, s.values.nextId, name?, p⟩)] := by
      rw [linksOf_addValueLink, if_pos rfl, added.linksOf (not_clear hp)]
    generalize (r.1.addValueLink ⟨parent, s.values.nextId, name?, p⟩).1 = s₂ at *
    have hp₂ := linked.values.contains hp₁
    have ho₂ : ∀ d, owner? = some d → s₂.documents.contains d :=
      fun d hd => linked.documents.contains (added.documents.contains (ho d hd))
    obtain ⟨ls, links, reads⟩ := addChildren_reads (linked.closed (added.closed hs)) ho₂ p
      expected? hp₂ rest
    refine ⟨_ :: ls, by rw [links, links₁, List.append_assoc]; rfl, fun t later n hn => ?_⟩
    rw [Value.heightAll] at hn
    have done := (linked.addChildren linked.marks_le ho₂ p expected? hp₂ (.inl old) rest).1
    rw [List.mapM_cons, first t (done.trans (later.lower done.marks_le)) n
      (by omega), reads t (later.raise fun k => Nat.le_trans (added.marks_le k) (linked.marks_le k)) n (by omega)]
    rfl

end

/-- A new value can be read from every store in which nothing was put on its rows since. -/
theorem addValue_value (hs : s.Closed)
    (ho : ∀ d, owner? = some d → s.documents.contains d) (p : Position)
    (expected? : Option TypeRef) (v : Value) {t : Store}
    (later : Appends s.marks (s.addValue owner? p expected? v).1.marks
      (s.addValue owner? p expected? v).1 t) :
    t.value s.values.nextId = .ok v := by
  have := height_le_size s owner? p expected? v
  have := later.values.size_le
  exact addValue_reads hs ho p expected? v t later _ (by omega)

/-! ## Writers -/

/-- From `s` to `r` rows came that show in a view, and every store that puts nothing on them later
reads them as `cs`. Rows are put on new rows and at the view's place only, so that a range of
numbers in which this is not, as `free` says, is left as it was. -/
structure Writes {β γ : Type} (free : (Seat → Nat) → (Seat → Nat) → Prop) (view : Store → List β)
    (read : Store → β → Except Failure γ) (s r : Store) (cs : List γ) : Prop where
  appends : ∀ a b, (∀ k, b k ≤ s.marks k) → free a b → Appends a b s r
  shows : ∃ bs, view r = view s ++ bs ∧ ∀ t, Appends s.marks r.marks r t → bs.mapM (read t) = .ok cs

namespace Writes

variable {β γ : Type} {free : (Seat → Nat) → (Seat → Nat) → Prop} {view : Store → List β}
  {read : Store → β → Except Failure γ} {s s' r : Store} {cs cs' : List γ}

theorem nil (s : Store) : Writes free view read s s [] :=
  ⟨fun _ _ _ _ => .refl _ _ _, [], (List.append_nil _).symm, fun _ _ => rfl⟩

theorem append (h : Writes free view read s s' cs) (h' : Writes free view read s' r cs')
    (old : ∀ b, free s.marks b) : Writes free view read s r (cs ++ cs') := by
  have before := (h.appends s.marks s.marks (fun _ => Nat.le_refl _) (old s.marks)).marks_le
  refine ⟨fun a b hb hf => ?_, ?_⟩
  · exact (h.appends a b hb hf).trans 
      (h'.appends a b (fun k => Nat.le_trans (hb k) (before k)) hf)
  · obtain ⟨bs, shows, reads⟩ := h.shows
    obtain ⟨bs', shows', reads'⟩ := h'.shows
    refine ⟨bs ++ bs', by rw [shows', shows, List.append_assoc], fun t later => ?_⟩
    have rest := h'.appends s.marks s'.marks (fun _ => Nat.le_refl _) (old s'.marks)
    have first := reads t (rest.trans (later.lower rest.marks_le))
    have second := reads' t (later.raise before)
    rw [List.mapM_append, first, second]
    rfl

theorem restrict {free' : (Seat → Nat) → (Seat → Nat) → Prop}
    (h : Writes free view read s r cs) (hf : ∀ a b, free' a b → free a b) :
    Writes free' view read s r cs :=
  ⟨fun a b hb ha => h.appends a b hb (hf a b ha), h.shows⟩

/-- A writer that is run on each item writes what the items stand for, one after the other. -/
theorem foldl {α : Type} {step : Store → α → Store} {values : α → List γ} {P : Store → Prop}
    (kept : ∀ {a b s r}, Appends a b s r → P s → P r) (old : ∀ s, P s → ∀ b, free s.marks b)
    (xs : List α) (hstep : ∀ s, P s → ∀ x ∈ xs, Writes free view read s (step s x) (values x))
    {s : Store} (hs : P s) : Writes free view read s (xs.foldl step s) (xs.flatMap values) := by
  induction xs generalizing s with
  | nil => exact nil s
  | cons x xs ih =>
    have first := hstep s hs x List.mem_cons_self
    have hs' := kept (first.appends s.marks s.marks (fun _ => Nat.le_refl _) (old s hs s.marks)) hs
    have others := ih (fun s hs y hy => hstep s hs y (List.mem_cons_of_mem x hy)) hs'
    rw [List.foldl_cons, List.flatMap_cons]
    exact first.append others (old s hs)

theorem foldl_map {α : Type} {step : Store → α → Store} {value : α → γ} {P : Store → Prop}
    (kept : ∀ {a b s r}, Appends a b s r → P s → P r) (old : ∀ s, P s → ∀ b, free s.marks b)
    (xs : List α) (hstep : ∀ s, P s → ∀ x ∈ xs, Writes free view read s (step s x) [value x])
    {s : Store} (hs : P s) : Writes free view read s (xs.foldl step s) (xs.map value) := by
  rw [List.map_eq_flatMap]
  exact foldl kept old xs hstep hs

end Writes

/-! ## Writers that follow one another

A new row gets what stands on it by several writers, each of which puts rows on it in its own way.
-/

/-- From `s` to `r` rows are put on `x` in the ways `ks`, and else on new rows only. -/
def Furnishes (ks : List Seat) (x : Int) (s r : Store) : Prop :=
  ∀ a b, (∀ k, b k ≤ s.marks k) → (∀ k ∈ ks, Clear (a k) (b k) x) → Appends a b s r

/-- The rows of a view are those that stand on `x` in the way `k`. -/
structure Seated {β : Type} (k : Seat) (x : Int) (low : Seat → Nat)
    (free : (Seat → Nat) → (Seat → Nat) → Prop) (view : Store → List β) : Prop where
  free : ∀ {a b}, Clear (a k) (b k) x → free a b
  frame : ∀ {a b s t}, Appends a b s t → (∀ j, low j ≤ b j) → ¬ Clear (a k) (b k) x →
    view t = view s

/-- `x` came between `s` and `s₁`, and rows may be put on it in the ways `ks`. -/
structure NewRow (ks : List Seat) (x : Int) (s s₁ : Store) : Prop where
  marks_le : ∀ k, s.marks k ≤ s₁.marks k
  new : ∀ k ∈ ks, (s.marks k : Int) < x
  here : ∀ k ∈ ks, x ≤ s₁.marks k

section Furnishing

variable {β γ : Type} {free : (Seat → Nat) → (Seat → Nat) → Prop} {view : Store → List β}
  {read : Store → β → Except Failure γ} {k : Seat} {ks ks₁ ks₂ : List Seat} {x : Int}
  {s s₁ s₂ s₃ r t : Store} {cs : List γ}

theorem Furnishes.refl (x : Int) (s : Store) : Furnishes [] x s s := fun _ _ _ _ => .refl _ _ _

theorem Furnishes.marks_le (h : Furnishes ks x s r) (hx : 0 < x) : ∀ k, s.marks k ≤ r.marks k :=
  (h unmarked unmarked (fun _ => Nat.zero_le _) fun _ _ => .inr hx).marks_le

theorem Furnishes.trans (h : Furnishes ks₁ x s s₁) (h' : Furnishes ks₂ x s₁ r) (hx : 0 < x) :
    Furnishes (ks₁ ++ ks₂) x s r := by
  intro a b hb free
  have le := h.marks_le hx
  exact (h a b hb fun k hk => free k (List.mem_append_left _ hk)).trans
    (h' a b (fun k => Nat.le_trans (hb k) (le k)) fun k hk => free k (List.mem_append_right _ hk))

theorem Furnishes.mono (h : Furnishes ks₁ x s r) (sub : ∀ k ∈ ks₁, k ∈ ks₂) :
    Furnishes ks₂ x s r :=
  fun a b hb free => h a b hb fun k hk => free k (sub k hk)

theorem Writes.furnishes (h : Writes free view read s r cs)
    (seated : Seated k x s₁.marks free view) : Furnishes [k] x s r :=
  fun a b hb hx => h.appends a b hb (seated.free (hx k List.mem_cons_self))

theorem NewRow.not_clear (h : NewRow ks x s s₁) (hk : k ∈ ks) {low high : Nat}
    (hl : low ≤ s.marks k) (hh : s₁.marks k ≤ high) : ¬ Clear low high x := by
  have := h.new k hk
  have := h.here k hk
  unfold Clear
  omega

theorem NewRow.pos (h : NewRow ks x s s₁) (hk : k ∈ ks) : 0 < x := by
  have := h.new k hk
  omega

/-- Writers before and after that put rows on `x` in other ways leave a view as it was. -/
theorem NewRow.view_eq (h : NewRow ks x s s₁) (seated : Seated k x s.marks free view)
    (hk : k ∈ ks) (le : ∀ j, s₁.marks j ≤ s₂.marks j) (after : Furnishes ks₁ x s₂ r)
    (sub : ∀ j ∈ ks₁, j ∈ ks ∧ j ≠ k) : view r = view s₂ := by
  have le₂ := fun j => Nat.le_trans (h.marks_le j) (le j)
  have grown := after unmarked (marksAt k s s₂) (marksAt_le le₂ (fun _ => Nat.le_refl _) k) (by
    intro j hj
    have := h.new j (sub j hj).1
    simp only [marksAt, (sub j hj).2, if_false]
    exact .inr this)
  refine seated.frame grown (fun j => ?_) ?_
  · unfold marksAt
    split
    · exact le₂ j
    · exact Nat.le_refl _
  · simp only [marksAt, if_true]
    exact h.not_clear hk (Nat.zero_le _) (le k)

/-- What one of the writers wrote can be read when all of them are done. -/
theorem NewRow.reads (h : NewRow ks x s s₁) (seated : Seated k x s.marks free view)
    (hk : k ∈ ks) (nothing : view s₁ = []) (before : Furnishes ks₁ x s₁ s₂)
    (w : Writes free view read s₂ s₃ cs) (after : Furnishes ks₂ x s₃ r)
    (sub₁ : ∀ j ∈ ks₁, j ∈ ks ∧ j ≠ k) (sub₂ : ∀ j ∈ ks₂, j ∈ ks ∧ j ≠ k)
    (later : Appends s.marks r.marks r t) : (view t).mapM (read t) = .ok cs := by
  have le₂ := before.marks_le (h.pos hk)
  have le₃ := (w.furnishes seated).marks_le (h.pos hk)
  have le := fun j => Nat.le_trans (le₂ j) (le₃ j)
  have done := after s₂.marks s₃.marks (fun _ => Nat.le_refl _) fun j hj =>
    .inl (Int.le_trans (h.here j (sub₂ j hj).1) (Int.ofNat_le.mpr (le₂ j)))
  have same : view t = view r := by
    refine seated.frame later (fun j => ?_) (h.not_clear hk (Nat.le_refl _) ?_)
    · exact Nat.le_trans (h.marks_le j) (Nat.le_trans (le j) (done.marks_le j))
    · exact Nat.le_trans (le k) (done.marks_le k)
  obtain ⟨bs, rows, reads⟩ := w.shows
  rw [same, h.view_eq seated hk le after sub₂, rows,
    h.view_eq seated hk (fun _ => Nat.le_refl _) before sub₁, nothing]
  exact reads t (done.trans
    ((later.raise fun j => Nat.le_trans (h.marks_le j) (le₂ j)).lower done.marks_le))

/-- A new row that shows in a view, with all that is put on it. -/
theorem NewRow.writes {c₀ : β} {c : γ} (h : NewRow ks x s s₁)
    (step : ∀ a b, free a b → Appends a b s s₁) (all : Furnishes ks x s₁ r)
    (shows : view s₁ = view s ++ [c₀]) (stays : Appends unmarked s.marks s₁ r → view r = view s₁)
    (reads : ∀ t, Appends s.marks r.marks r t → read t c₀ = .ok c) :
    Writes free view read s r [c] := by
  have rest : ∀ a b, (∀ k, b k ≤ s.marks k) → Appends a b s₁ r := fun a b hb =>
    all a b (fun k => Nat.le_trans (hb k) (h.marks_le k)) fun k hk =>
      .inr (Int.lt_of_le_of_lt (Int.ofNat_le.mpr (hb k)) (h.new k hk))
  refine ⟨fun a b hb hf => (step a b hf).trans (rest a b hb), [c₀], ?_, fun t later => ?_⟩
  · rw [stays (rest _ _ fun _ => Nat.le_refl _), shows]
  · rw [List.mapM_cons, reads t later]
    rfl

end Furnishing

/-- Adds a value and then a row that refers to it. -/
theorem addValue_writes {β γ : Type} {free : (Seat → Nat) → (Seat → Nat) → Prop}
    {view : Store → List β} {read : Store → β → Except Failure γ} {c : γ}
    (push : Store → Store) (row : Store → β) (hs : s.Closed) (ho : ∀ d, owner? = some d → s.documents.contains d) (p : Position)
    (expected? : Option TypeRef) (v : Value) (old : ∀ b, free s.marks b)
    (step : ∀ a b r, Appends unmarked s.marks s r → r.values.contains s.values.nextId →
      free a b → Appends a b r (push r))
    (shows : ∀ r, Appends unmarked s.marks s r → view (push r) = view s ++ [row r])
    (reads : ∀ r t, t.value s.values.nextId = .ok v → read t (row r) = .ok c) :
    Writes free view read s (push (s.addValue owner? p expected? v).1) [c] := by
  have grown := fun a b (hb : ∀ k, b k ≤ s.marks k) =>
    ((Appends.refl a b s).addValue hb ho p expected? v).1
  obtain ⟨new, here⟩ := (Appends.refl unmarked s.marks s).addValue (fun _ => Nat.le_refl _) ho p
    expected? v
  have value := @addValue_value s owner? hs ho p expected? v
  generalize s.addValue owner? p expected? v = r at *
  refine ⟨fun a b hb free => (grown a b hb).trans (step a b r.1 new here free), [row r.1],
    shows r.1 new, fun t later => ?_⟩
  have done := step s.marks r.1.marks r.1 new here (old r.1.marks)
  rw [List.mapM_cons, reads r.1 t (value (done.trans (later.lower done.marks_le)))]
  rfl

end Store

end GraphDoc
