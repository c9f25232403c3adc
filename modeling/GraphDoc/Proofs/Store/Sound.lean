import GraphDoc.FragmentArgument.Substitute
import GraphDoc.Proofs.Store.Closed

/-!
# Sound stores

The values of a store are a forest: each row has at most one owner, and a link leads from a row to
one of a higher number. `Store.Sound` says this together with what keeps it true when documents are
copied: the values in a document belong to the document. Documents that `G` holds of are exempt from
that; they borrow the selections of others. Placements do not nest deeper than can be read.

Every primitive write has one lemma, which asks of it what soundness needs.
-/

set_option autoImplicit false

namespace GraphDoc

open Table

namespace Store

def Unowned (s : Store) (value : Int) : Prop := ∀ o, s.owns o ≠ some value

/-- The document that a value belongs to. -/
def documentOf (s : Store) (value : Int) : Option Int := (s.values.get? value).bind (·.document?)

/-- Whether a value may stand on a row: it belongs to the document that the row is in. -/
def Houses (s : Store) (G : Int → Prop) : Site → Int → Int → Prop
  | .document, document, value => s.documentOf value = some document
  | .declaration, _, _ => True
  | .selection, selection, value => ∀ p ∈ s.placements.rows, p.child = selection →
      ¬ G p.document → s.documentOf value = some p.document

/-- What a value is given as a child: a name in an object, none in a list. -/
def Fits (kind : ValueKind) (name? : Option String) : Prop :=
  (kind = .list ∧ name? = none) ∨ (kind = .object ∧ name?.isSome = true)

/-- Some selection leads down to this one in so many steps. -/
inductive Descent (t : Table Placement) : Nat → Int → Prop where
  | here (x : Int) : Descent t 0 x
  | down {n : Nat} {x : Int} {p : Placement} (h : Descent t n x) (hp : p ∈ t.rows)
      (hx : p.parent? = some x) : Descent t (n + 1) p.child

structure Sound (G : Int → Prop) (s : Store) : Prop where
  closed : s.Closed
  single : ∀ o o' v, s.owns o = some v → s.owns o' = some v → o = o'
  descends : ∀ l ∈ s.valueLinks.rows, l.parent < l.value
  shaped : ∀ l ∈ s.valueLinks.rows, ∀ row, s.values.get? l.parent = some row →
    Fits row.kind l.name?
  together : ∀ l ∈ s.valueLinks.rows, s.documentOf l.value = s.documentOf l.parent
  arguments : ∀ a ∈ s.fieldArguments.rows, s.Houses G .selection a.selection a.value
  directives : ∀ site id u, (s.directives site).uses.get? id = some u →
    ∀ a ∈ (s.directives site).arguments.rows, a.owner = id → s.Houses G site u.owner a.value
  declared : ∀ v ∈ s.declarations.rows, ¬ G v.document
  shallow : ∀ n x, Descent s.placements n x → n < Failure.depthLimit

variable {s : Store} {G : Int → Prop}

/-! ## Owners after a write -/

theorem owns_addFieldArgument (s : Store) (row : FieldArgument) (o : Owner) :
    (s.addFieldArgument row).1.owns o =
      if o = .argument s.fieldArguments.nextId then some row.value else s.owns o := by
  cases o with
  | argument id =>
    simp only [owns, addFieldArgument, get?_push, Owner.argument.injEq]
    split <;> rfl
  | _ => rfl

theorem owns_addValueLink (s : Store) (row : ValueLink) (o : Owner) :
    (s.addValueLink row).1.owns o =
      if o = .child s.valueLinks.nextId then some row.value else s.owns o := by
  cases o with
  | child id =>
    simp only [owns, addValueLink, get?_push, Owner.child.injEq]
    split <;> rfl
  | _ => rfl

theorem owns_addVariable (s : Store) (row : VariableRow) (o : Owner) :
    (s.addVariable row).1.owns o =
      if o = .default s.declarations.nextId then row.default? else s.owns o := by
  cases o with
  | default id =>
    simp only [owns, addVariable, get?_push, Owner.default.injEq]
    split <;> rfl
  | _ => rfl

theorem owns_setDirectives (s : Store) (site : Site) (t : DirectiveTables) (o : Owner) :
    (s.setDirectives site t).owns o = match o with
      | .directive other id => if other = site then (t.arguments.get? id).map (·.value)
          else s.owns (.directive other id)
      | o => s.owns o := by
  cases o with
  | directive other id =>
    simp only [owns, directives_setDirectives]
    split <;> rfl
  | _ => cases site <;> rfl

theorem owns_addDirective (s : Store) (site : Site) (row : DirectiveUse) (o : Owner) :
    (s.addDirective site row).1.owns o = s.owns o := by
  rw [addDirective, owns_setDirectives]
  cases o with
  | directive other id =>
    simp only [owns]
    split
    · next h => rw [h]
    · rfl
  | _ => rfl

theorem owns_addDirectiveArgument (s : Store) (site : Site) (row : DirectiveArgument) (o : Owner) :
    (s.addDirectiveArgument site row).1.owns o =
      if o = .directive site (s.directives site).arguments.nextId then some row.value
      else s.owns o := by
  rw [addDirectiveArgument, owns_setDirectives]
  cases o with
  | directive other id =>
    simp only [owns, get?_push, Owner.directive.injEq]
    by_cases h : other = site
    · subst h
      by_cases hid : id = (s.directives other).arguments.nextId <;> simp [hid]
    · simp [h]
  | _ => rfl

theorem owns_setLink (s : Store) (link value : Int) (o : Owner) :
    (s.setLink link value).owns o =
      if o = .child link then (s.owns o).map (fun _ => value) else s.owns o := by
  cases o with
  | child id =>
    simp only [owns, setLink, get?_modify, Owner.child.injEq]
    split <;> simp [Function.comp_def]
  | _ => rfl

theorem owns_setArgument (s : Store) (argument value : Int) (o : Owner) :
    (s.setArgument argument value).owns o =
      if o = .argument argument then (s.owns o).map (fun _ => value) else s.owns o := by
  cases o with
  | argument id =>
    simp only [owns, setArgument, get?_modify, Owner.argument.injEq]
    split <;> simp [Function.comp_def]
  | _ => rfl

/-! ## What owners refer to -/

theorem Closed.unowned_of_issued_lt (h : s.Closed) {v : Int} (hv : (s.values.issued : Int) < v) :
    s.Unowned v := by
  intro o ho
  have := le_issued_of_contains (h.contains_of_owns ho)
  omega

theorem Closed.unowned_nextId (h : s.Closed) : s.Unowned s.values.nextId :=
  h.unowned_of_issued_lt s.values.issued_lt_nextId

theorem single_of_or {s s' : Store} (o₀ : Owner) {v₀ : Int}
    (single : ∀ o o' v, s.owns o = some v → s.owns o' = some v → o = o') (free : s.Unowned v₀)
    (h : ∀ o v, s'.owns o = some v → (o = o₀ ∧ v = v₀) ∨ s.owns o = some v)
    (o o' : Owner) (v : Int) (ho : s'.owns o = some v) (ho' : s'.owns o' = some v) : o = o' := by
  rcases h o v ho with ⟨he, hv⟩ | hv <;> rcases h o' v ho' with ⟨he', hv'⟩ | hv'
  · rw [he, he']
  · exact absurd (hv ▸ hv') (free o')
  · exact absurd (hv' ▸ hv) (free o)
  · exact single _ _ _ hv hv'

theorem single_of_new {s s' : Store} {o₀ : Owner} {v₀ : Int}
    (single : ∀ o o' v, s.owns o = some v → s.owns o' = some v → o = o')
    (free : s.Unowned v₀) (h : ∀ o, s'.owns o = if o = o₀ then some v₀ else s.owns o) :
    ∀ o o' v, s'.owns o = some v → s'.owns o' = some v → o = o' := by
  refine single_of_or o₀ single free fun o v ho => ?_
  rw [h] at ho
  split at ho
  · next he => exact .inl ⟨he, (Option.some.inj ho).symm⟩
  · exact .inr ho

theorem single_of_moved {s s' : Store} {o₀ : Owner} {v₀ : Int}
    (single : ∀ o o' v, s.owns o = some v → s.owns o' = some v → o = o')
    (free : s.Unowned v₀)
    (h : ∀ o, s'.owns o = if o = o₀ then (s.owns o).map (fun _ => v₀) else s.owns o) :
    ∀ o o' v, s'.owns o = some v → s'.owns o' = some v → o = o' := by
  refine single_of_or o₀ single free fun o v ho => ?_
  rw [h] at ho
  split at ho
  · next he =>
    obtain ⟨_, _, rfl⟩ := Option.map_eq_some_iff.mp ho
    exact .inl ⟨he, rfl⟩
  · exact .inr ho

/-! ## Documents of values -/

theorem documentOf_addValueRow_of_contains {v : Int} (row : ValueRow)
    (h : s.values.contains v) : (s.addValueRow row).1.documentOf v = s.documentOf v := by
  simp only [documentOf, addValueRow, get?_push_of_le (le_issued_of_contains h)]

@[simp] theorem documentOf_addValueRow_nextId (s : Store) (row : ValueRow) :
    (s.addValueRow row).1.documentOf s.values.nextId = row.document? := by
  simp [documentOf, addValueRow]

/-- A selection that is not placed can take any value. -/
theorem Houses.of_not_placed {x v : Int} (h : ∀ p ∈ s.placements.rows, p.child ≠ x) :
    s.Houses G .selection x v := fun p hp hx => absurd hx (h p hp)

theorem Houses.congr {s' : Store} {site : Site} {x v : Int} (h : s.Houses G site x v)
    (hd : s'.documentOf v = s.documentOf v) (hp : s'.placements = s.placements) :
    s'.Houses G site x v := by
  cases site with
  | document => exact hd.trans h
  | declaration => trivial
  | selection => exact fun p hm hx hg => hd.trans (h p (hp ▸ hm) hx hg)

/-- All values that stand on a selection belong to a document. -/
def HeldIn (s : Store) (x d : Int) : Prop :=
  (∀ a ∈ s.fieldArguments.rows, a.selection = x → s.documentOf a.value = some d) ∧
  ∀ id u, (s.directives .selection).uses.get? id = some u → u.owner = x →
    ∀ a ∈ (s.directives .selection).arguments.rows, a.owner = id → s.documentOf a.value = some d

/-! ## Descents -/

/-- Placements that repeat others, with their selections translated, go no deeper. -/
theorem Descent.map {t t' : Table Placement} {f : Int → Int}
    (h : ∀ p ∈ t'.rows, ∀ x, p.parent? = some x →
      ∃ q ∈ t.rows, q.parent? = some (f x) ∧ q.child = f p.child)
    {n : Nat} {x : Int} (hd : Descent t' n x) : Descent t n (f x) := by
  induction hd with
  | here x => exact .here (f x)
  | down _ hp hx ih =>
    obtain ⟨q, hq, hparent, hchild⟩ := h _ hp _ hx
    exact hchild ▸ ih.down hq hparent

/-- What leads to a selection that is placed anew leads to its parent first. -/
theorem Descent.of_push {t : Table Placement} {row : Placement}
    (hr : row.parent? ≠ some row.child) (hnew : ∀ p ∈ t.rows, p.parent? ≠ some row.child)
    {n : Nat} {x : Int} (hd : Descent (t.push row) n x) : Descent t n x ∨
      x = row.child ∧ ∃ m y, n = m + 1 ∧ row.parent? = some y ∧ Descent t m y := by
  induction hd with
  | here x => exact .inl (.here x)
  | @down m x p _ hp hx ih =>
    have old : Descent t m x := by
      refine ih.resolve_right fun ⟨hc, _⟩ => ?_
      rw [hc] at hx
      rcases (by simpa using hp : p ∈ t.rows ∨ p = row) with hp | rfl
      · exact hnew p hp hx
      · exact hr hx
    rcases (by simpa using hp : p ∈ t.rows ∨ p = row) with hp | rfl
    · exact .inl (old.down hp hx)
    · exact .inr ⟨rfl, m, x, rfl, hx, old⟩

/-! ## Soundness under writes -/

theorem Sound.addDocument (h : s.Sound G) {row : DocumentRow}
    (hs : s.sources.contains row.source) : (s.addDocument row).1.Sound G :=
  { h with closed := h.closed.addDocument hs }

theorem Sound.addSelection (h : s.Sound G) (row : SelectionRow) : (s.addSelection row).1.Sound G :=
  { h with closed := h.closed.addSelection row }

theorem Sound.withSelections (h : s.Sound G) {selections : Table SelectionRow}
    (hc : ∀ id, selections.contains id = s.selections.contains id) :
    Sound G { s with selections := selections } :=
  { h with closed := h.closed.withSelections hc }

theorem Sound.addVariable (h : s.Sound G) {row : VariableRow}
    (hd : s.documents.contains row.document) (hG : ¬ G row.document)
    (hv : ∀ d, row.default? = some d → s.values.contains d ∧ s.Unowned d) :
    (s.addVariable row).1.Sound G := by
  refine { h with closed := h.closed.addVariable hd fun d hd => (hv d hd).1, single := ?_
                  declared := forall_rows_push.mpr ⟨h.declared, hG⟩ }
  cases hr : row.default? with
  | none =>
    have sub : ∀ {o v}, (s.addVariable row).1.owns o = some v → s.owns o = some v := by
      intro o v ho
      rw [owns_addVariable, hr] at ho
      split at ho
      · cases ho
      · exact ho
    exact fun o o' v ho ho' => h.single o o' v (sub ho) (sub ho')
  | some d =>
    have howns : ∀ o, (s.addVariable row).1.owns o =
        if o = .default s.declarations.nextId then some d else s.owns o := by
      intro o
      rw [owns_addVariable, hr]
    exact single_of_new h.single (hv d hr).2 howns

theorem Sound.addPlacement (h : s.Sound G) {row : Placement}
    (hp : ∀ x, row.parent? = some x → s.selections.contains x)
    (hc : s.selections.contains row.child)
    (hd : s.documents.contains row.document)
    (hh : ¬ G row.document → s.HeldIn row.child row.document)
    (shallow : ∀ n x, Descent (s.placements.push row) n x → n < Failure.depthLimit) :
    (s.addPlacement row).1.Sound G := by
  refine { h with closed := h.closed.addPlacement hp hc hd, arguments := ?_, directives := ?_,
                  shallow := shallow }
  · intro a ha
    refine forall_rows_push.mpr ⟨h.arguments a ha, fun hx hg => (hh hg).1 a ha hx.symm⟩
  · intro site id u hu a ha hid
    cases site with
    | document => exact h.directives .document id u hu a ha hid
    | declaration => trivial
    | selection =>
      refine forall_rows_push.mpr ⟨h.directives .selection id u hu a ha hid, ?_⟩
      exact fun hx hg => (hh hg).2 id u hu hx.symm a ha hid

theorem Sound.addFieldArgument (h : s.Sound G) {row : FieldArgument}
    (hx : s.selections.contains row.selection) (hv : s.values.contains row.value)
    (free : s.Unowned row.value) (hh : s.Houses G .selection row.selection row.value) :
    (s.addFieldArgument row).1.Sound G :=
  { h with
    closed := h.closed.addFieldArgument hx hv
    single := single_of_new h.single free (s.owns_addFieldArgument row)
    arguments := forall_rows_push.mpr ⟨h.arguments, hh⟩ }

theorem Sound.addValueRow (h : s.Sound G) {row : ValueRow}
    (hd : ∀ d, row.document? = some d → s.documents.contains d) :
    (s.addValueRow row).1.Sound G := by
  have old : ∀ {v}, s.values.contains v →
      (s.addValueRow row).1.documentOf v = s.documentOf v :=
    documentOf_addValueRow_of_contains row
  refine { h with closed := h.closed.addValueRow hd, shaped := ?_, together := ?_, arguments := ?_
                  directives := ?_ }
  · intro l hl r hr
    have hp := (h.closed.valueLinks l hl).1
    exact h.shaped l hl r ((get?_push_of_le (le_issued_of_contains hp)).symm.trans hr)
  · intro l hl
    obtain ⟨hp, hv⟩ := h.closed.valueLinks l hl
    rw [old hp, old hv, h.together l hl]
  · intro a ha
    exact (h.arguments a ha).congr (old (h.closed.fieldArguments a ha).2) rfl
  · intro site id u hu a ha hid
    have hv := ((h.closed.directives site).arguments a (by cases site <;> exact ha)).2
    refine Houses.congr ?_ (old hv) rfl
    exact h.directives site id u (by cases site <;> exact hu) a (by cases site <;> exact ha) hid

theorem Sound.addValueLink (h : s.Sound G) {row : ValueLink} {r : ValueRow}
    (hp : s.values.get? row.parent = some r) (hv : s.values.contains row.value)
    (free : s.Unowned row.value) (hlt : row.parent < row.value) (hf : Fits r.kind row.name?)
    (hd : s.documentOf row.value = r.document?) : (s.addValueLink row).1.Sound G := by
  refine { h with
    closed := h.closed.addValueLink (contains_of_get? hp) hv
    single := single_of_new h.single free (s.owns_addValueLink row)
    descends := forall_rows_push.mpr ⟨h.descends, hlt⟩
    shaped := forall_rows_push.mpr ⟨h.shaped, fun r' hr' => ?_⟩
    together := forall_rows_push.mpr ⟨h.together, ?_⟩ }
  · cases hp.symm.trans hr'
    exact hf
  · change s.documentOf row.value = s.documentOf row.parent
    rw [hd, documentOf, hp, Option.bind_some]

theorem Sound.setDirectives (h : s.Sound G) {site : Site} {t : DirectiveTables}
    (hc : t.Closed (s.isOwner site) s.values.contains)
    (single : ∀ o o' v, (s.setDirectives site t).owns o = some v →
      (s.setDirectives site t).owns o' = some v → o = o')
    (hh : ∀ id u, t.uses.get? id = some u → ∀ a ∈ t.arguments.rows, a.owner = id →
      s.Houses G site u.owner a.value) : (s.setDirectives site t).Sound G := by
  have hd : ∀ other id u, ((s.setDirectives site t).directives other).uses.get? id = some u →
      ∀ a ∈ ((s.setDirectives site t).directives other).arguments.rows, a.owner = id →
        s.Houses G other u.owner a.value := by
    intro other
    rw [directives_setDirectives]
    split
    · next he => exact he ▸ hh
    · exact h.directives other
  have closed := h.closed.setDirectives hc
  cases site <;> exact
    { closed, single, descends := h.descends, shaped := h.shaped, together := h.together
      arguments := h.arguments, declared := h.declared, shallow := h.shallow
      directives := fun other => by cases other <;> exact hd _ }

/-- A new directive has no arguments yet. -/
theorem Sound.addDirective (h : s.Sound G) {site : Site} {row : DirectiveUse}
    (ho : s.isOwner site row.owner) : (s.addDirective site row).1.Sound G := by
  have hc := h.closed.directives site
  refine h.setDirectives ⟨forall_rows_push.mpr ⟨hc.uses, ho⟩, fun a ha => ?_⟩ ?_ ?_
  · obtain ⟨hu, hv⟩ := hc.arguments a ha
    exact ⟨contains_push_of_contains hu, hv⟩
  · intro o o' v hov hov'
    exact h.single o o' v ((owns_addDirective ..).symm.trans hov)
      ((owns_addDirective ..).symm.trans hov')
  · intro id u hu a ha hid
    have hle := le_issued_of_contains (hc.arguments a ha).1
    exact h.directives site id u ((get?_push_of_le (hid ▸ hle)).symm.trans hu) a ha hid

theorem Sound.addDirectiveArgument (h : s.Sound G) {site : Site} {row : DirectiveArgument}
    {u : DirectiveUse} (hu : (s.directives site).uses.get? row.owner = some u)
    (hv : s.values.contains row.value) (free : s.Unowned row.value)
    (hh : s.Houses G site u.owner row.value) : (s.addDirectiveArgument site row).1.Sound G := by
  have hc := h.closed.directives site
  refine h.setDirectives ⟨hc.uses, forall_rows_push.mpr
    ⟨hc.arguments, contains_of_get? hu, hv⟩⟩ ?_ ?_
  · exact single_of_new h.single free (s.owns_addDirectiveArgument site row)
  · intro id u' hu'
    refine forall_rows_push.mpr ⟨h.directives site id u' hu', fun hid => ?_⟩
    subst hid
    cases hu.symm.trans hu'
    exact hh

theorem Sound.setLink (h : s.Sound G) {link value : Int} (hv : s.values.contains value)
    (free : s.Unowned value)
    (hl : ∀ l, s.valueLinks.get? link = some l →
      l.parent < value ∧ s.documentOf value = s.documentOf l.parent) :
    (s.setLink link value).Sound G := by
  have cases_of : ∀ l ∈ (s.setLink link value).valueLinks.rows, l ∈ s.valueLinks.rows ∨
      ∃ l₀, s.valueLinks.get? link = some l₀ ∧ l = { l₀ with value := value } :=
    fun l hm => mem_rows_modify hm
  refine { h with
    closed := { h.closed with valueLinks := ?_ }
    single := single_of_moved h.single free (s.owns_setLink link value)
    descends := ?_, shaped := ?_, together := ?_ }
  all_goals
    intro l hm
    rcases cases_of l hm with hm | ⟨l₀, h₀, rfl⟩
  · exact h.closed.valueLinks l hm
  · exact ⟨(h.closed.valueLinks l₀ (mem_rows_of_get? h₀)).1, hv⟩
  · exact h.descends l hm
  · exact (hl l₀ h₀).1
  · exact h.shaped l hm
  · exact h.shaped l₀ (mem_rows_of_get? h₀)
  · exact h.together l hm
  · exact (hl l₀ h₀).2

theorem Sound.setArgument (h : s.Sound G) {argument value : Int}
    (hv : s.values.contains value) (free : s.Unowned value)
    (hh : ∀ a, s.fieldArguments.get? argument = some a →
      s.Houses G .selection a.selection value) : (s.setArgument argument value).Sound G := by
  have cases_of : ∀ a ∈ (s.setArgument argument value).fieldArguments.rows,
      a ∈ s.fieldArguments.rows ∨
      ∃ a₀, s.fieldArguments.get? argument = some a₀ ∧ a = { a₀ with value := value } :=
    fun a hm => mem_rows_modify hm
  refine { h with
    closed := { h.closed with fieldArguments := ?_ }
    single := single_of_moved h.single free (s.owns_setArgument argument value)
    arguments := ?_ }
  all_goals
    intro a hm
    rcases cases_of a hm with hm | ⟨a₀, h₀, rfl⟩
  · exact h.closed.fieldArguments a hm
  · exact ⟨(h.closed.fieldArguments a₀ (mem_rows_of_get? h₀)).1, hv⟩
  · exact h.arguments a hm
  · exact hh a₀ h₀

theorem owns_of_eraseArgument {id v : Int} {o : Owner}
    (h : ({ s with fieldArguments := s.fieldArguments.erase id } : Store).owns o = some v) :
    s.owns o = some v := by
  cases o with
  | argument other =>
    obtain ⟨a, ha, rfl⟩ := Option.map_eq_some_iff.mp h
    rw [get?_erase] at ha
    split at ha
    · cases ha
    · exact Option.map_eq_some_iff.mpr ⟨a, ha, rfl⟩
  | _ => exact h

/-- A field argument can go; its value is then without an owner. -/
theorem Sound.eraseArgument (h : s.Sound G) (id : Int) :
    Sound G { s with fieldArguments := s.fieldArguments.erase id } :=
  { h with
    closed := { h.closed with
      fieldArguments := fun a ha => h.closed.fieldArguments a (mem_rows_erase ha) }
    single := fun o o' v ho ho' =>
      h.single o o' v (owns_of_eraseArgument ho) (owns_of_eraseArgument ho')
    arguments := fun a ha => h.arguments a (mem_rows_erase ha) }

theorem unowned_of_eraseArgument {id : Int} {a : FieldArgument} (h : s.Sound G)
    (ha : s.fieldArguments.get? id = some a) :
    ({ s with fieldArguments := s.fieldArguments.erase id } : Store).Unowned a.value := by
  intro o ho
  have hid : s.owns (.argument id) = some a.value := Option.map_eq_some_iff.mpr ⟨a, ha, rfl⟩
  cases o with
  | argument other =>
    obtain ⟨b, hb, hv⟩ := Option.map_eq_some_iff.mp ho
    rw [get?_erase] at hb
    split at hb
    · cases hb
    · next hne =>
      have := h.single _ (.argument other) _ hid (Option.map_eq_some_iff.mpr ⟨b, hb, hv⟩)
      exact hne (Owner.argument.inj this).symm
  | directive site other => cases h.single _ (.directive site other) _ hid ho
  | default other => cases h.single _ (.default other) _ hid ho
  | child other => cases h.single _ (.child other) _ hid ho

theorem get?_eraseVariable (s : Store) (v id : Int) :
    (s.eraseVariable v).values.get? id =
      (s.values.get? id).filter fun row => id ≠ v || row.kind ≠ .var :=
  get?_filterRows ..

theorem get?_eraseVariable_of_ne {v id : Int} (h : id ≠ v) :
    (s.eraseVariable v).values.get? id = s.values.get? id := by
  rw [get?_eraseVariable]
  cases s.values.get? id <;> simp [Option.filter, h]

/-- A variable without an owner can go. -/
theorem Sound.eraseVariable (h : s.Sound G) {v : Int} (free : s.Unowned v) :
    (s.eraseVariable v).Sound G := by
  have owned : ∀ o w, s.owns o = some w → (s.eraseVariable v).values.get? w = s.values.get? w := by
    intro o w ho
    refine get?_eraseVariable_of_ne fun hw => free o ?_
    rw [ho, hw]
  -- A row with children is no variable, so it stays.
  have parents : ∀ l ∈ s.valueLinks.rows,
      (s.eraseVariable v).values.get? l.parent = s.values.get? l.parent := by
    intro l hl
    obtain ⟨row, hrow⟩ := contains_iff.mp (h.closed.valueLinks l hl).1
    have hk : row.kind ≠ .var := by
      rcases h.shaped l hl row hrow with ⟨hk, _⟩ | ⟨hk, _⟩ <;> simp [hk]
    simp [get?_eraseVariable, hrow, Option.filter, hk]
  have documents : ∀ {o w}, s.owns o = some w →
      (s.eraseVariable v).documentOf w = s.documentOf w := by
    intro o w ho
    rw [documentOf, documentOf, owned o w ho]
  have kept : ∀ {id}, (s.eraseVariable v).values.get? id = s.values.get? id →
      s.values.contains id → (s.eraseVariable v).values.contains id := by
    intro id he hc
    rw [contains, he]
    exact hc
  refine { h with closed := ?_, shaped := ?_, together := ?_, arguments := ?_, directives := ?_ }
  · refine h.closed.withValues ?_ ?_ fun r hr => h.closed.values r (mem_rows_filterRows hr)
    · exact fun o w ho => kept (owned o w ho) (h.closed.contains_of_owns ho)
    · exact fun l hl => kept (parents l hl) (h.closed.valueLinks l hl).1
  · exact fun l hl row hrow => h.shaped l hl row ((parents l hl).symm.trans hrow)
  · intro l hl
    obtain ⟨id, hid⟩ := mem_rows_iff.mp hl
    have ho : s.owns (.child id) = some l.value := Option.map_eq_some_iff.mpr ⟨l, hid, rfl⟩
    have hp : (s.eraseVariable v).documentOf l.parent = s.documentOf l.parent := by
      rw [documentOf, documentOf, parents l hl]
    exact (documents ho).trans ((h.together l hl).trans hp.symm)
  · intro a ha
    obtain ⟨id, hid⟩ := mem_rows_iff.mp ha
    have ho : s.owns (.argument id) = some a.value := Option.map_eq_some_iff.mpr ⟨a, hid, rfl⟩
    exact (h.arguments a ha).congr (documents ho) rfl
  · intro site id u hu a ha hid
    have hu : (s.directives site).uses.get? id = some u := by cases site <;> exact hu
    have ha : a ∈ (s.directives site).arguments.rows := by cases site <;> exact ha
    obtain ⟨n, hn⟩ := mem_rows_iff.mp ha
    have ho : s.owns (.directive site n) = some a.value := Option.map_eq_some_iff.mpr ⟨a, hn, rfl⟩
    exact (h.directives site id u hu a ha hid).congr (documents ho) rfl

/-- A declaration may get another type, and a default if it has none. -/
theorem Sound.modifyDeclaration (h : s.Sound G) {id : Int} {f : VariableRow → VariableRow}
    (hdoc : ∀ v, (f v).document = v.document)
    (hdef : ∀ v, s.declarations.get? id = some v → (f v).default? = v.default? ∨
      ∃ d, (f v).default? = some d ∧ s.values.contains d ∧ s.Unowned d) :
    Sound G { s with declarations := s.declarations.modify id f } := by
  have rows_of : ∀ v ∈ (s.declarations.modify id f).rows, v ∈ s.declarations.rows ∨
      ∃ v₀, s.declarations.get? id = some v₀ ∧ v = f v₀ := fun v hm => mem_rows_modify hm
  have other : ∀ o, o ≠ .default id →
      ({ s with declarations := s.declarations.modify id f } : Store).owns o = s.owns o := by
    intro o ho
    cases o with
    | default n =>
      have hn : n ≠ id := fun he => ho (he ▸ rfl)
      simp only [owns, get?_modify, if_neg hn]
    | _ => rfl
  have this : ({ s with declarations := s.declarations.modify id f } : Store).owns (.default id) =
      (s.declarations.get? id).bind fun v => (f v).default? := by
    simp only [owns, get?_modify, ↓reduceIte, Option.bind_map, Function.comp_def]
  refine { h with closed := ?_, single := ?_, declared := ?_ }
  · refine h.closed.withDeclarations (fun n => contains_modify ..) fun v hm => ?_
    rcases rows_of v hm with hm | ⟨v₀, h₀, rfl⟩
    · exact h.closed.declarations v hm
    · obtain ⟨hd, hv⟩ := h.closed.declarations v₀ (mem_rows_of_get? h₀)
      refine ⟨(hdoc v₀).symm ▸ hd, fun d hd => ?_⟩
      rcases hdef v₀ h₀ with he | ⟨d', he, hc, _⟩
      · exact hv d (he ▸ hd)
      · cases he.symm.trans hd
        exact hc
  · -- Only the default of this declaration can have changed, and only to a free value.
    have same_or : (∀ o, ({ s with declarations := s.declarations.modify id f } : Store).owns o =
        s.owns o) ∨ ∃ d, s.Unowned d ∧ ∀ o,
          ({ s with declarations := s.declarations.modify id f } : Store).owns o =
            if o = .default id then some d else s.owns o := by
      cases h₀ : s.declarations.get? id with
      | none =>
        refine .inl fun o => ?_
        by_cases ho : o = .default id
        · subst ho
          rw [this, h₀]
          simp [owns, h₀]
        · exact other o ho
      | some v₀ =>
        rcases hdef v₀ h₀ with he | ⟨d, he, _, hfree⟩
        · refine .inl fun o => ?_
          by_cases ho : o = .default id
          · subst ho
            rw [this, h₀]
            simp [owns, h₀, he]
          · exact other o ho
        · refine .inr ⟨d, hfree, fun o => ?_⟩
          by_cases ho : o = .default id
          · subst ho
            rw [this, h₀, if_pos rfl, Option.bind_some, he]
          · rw [other o ho, if_neg ho]
    rcases same_or with hs | ⟨d, hfree, hs⟩
    · exact fun o o' v ho ho' => h.single o o' v ((hs o).symm.trans ho) ((hs o').symm.trans ho')
    · exact single_of_new h.single hfree hs
  · intro v hm
    rcases rows_of v hm with hm | ⟨v₀, h₀, rfl⟩
    · exact h.declared v hm
    · exact (hdoc v₀).symm ▸ h.declared v₀ (mem_rows_of_get? h₀)

/-- Other documents may borrow, as long as none of them declares anything. -/
theorem Sound.weaken {G' : Int → Prop} (h : s.Sound G)
    (hG : ∀ d, s.documents.contains d → G d → G' d)
    (hd : ∀ v ∈ s.declarations.rows, ¬ G' v.document) : s.Sound G' := by
  have houses : ∀ {site x v}, s.Houses G site x v → s.Houses G' site x v := by
    intro site x v hh
    cases site with
    | document => exact hh
    | declaration => trivial
    | selection =>
      intro p hp hx hg
      exact hh p hp hx fun hd => hg (hG _ (h.closed.placements p hp).2.2 hd)
  exact { h with
    arguments := fun a ha => houses (h.arguments a ha)
    directives := fun site id u hu a ha hid => houses (h.directives site id u hu a ha hid)
    declared := hd }

end Store

end GraphDoc
