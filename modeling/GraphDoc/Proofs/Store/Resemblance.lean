import GraphDoc.Proofs.Store.Trees

/-!
# Resembling selections

`Store.Resembles` says that one selection looks like another: it carries the same directives and,
unless it is a spread, bears the same name. By `Store.Draws` everything that is placed in one store
looks like something that is placed in another, and by `Store.Agrees` two stores have the same
documents, but for the names of spreads.
-/

set_option autoImplicit false

namespace GraphDoc.Store

open Table

variable {s s' s'' : Store} {G : Int → Prop} {x x' x'' : Int} {values values' : Value → Value}

/-- Selection `x'` of `s'` is like selection `x` of `s`, but a spread may have another name and
`values` is applied to the arguments. -/
structure Resembles (values : Value → Value) (s : Store) (x : Int) (s' : Store) (x' : Int) :
    Prop where
  row : ∃ row name, s.selections.get? x = some row ∧
    s'.selections.get? x' = some { row with name := name } ∧
    (row.kind ≠ .fragment → name = row.name)
  nodes : s'.nodes .selection x' = s.nodes .selection x
  arguments : s'.arguments x' = (s.arguments x).map fun a => (a.1, values a.2)

theorem Resembles.refl (hx : s.selections.contains x) :
    Resembles (fun v => v) s x s x := by
  obtain ⟨row, hrow⟩ := contains_iff.mp hx
  exact ⟨⟨row, row.name, hrow, hrow, fun _ => rfl⟩, rfl, by rw [List.map_id']⟩

theorem Resembles.trans (h : Resembles values s x s' x') (h' : Resembles values' s' x' s'' x'') :
    Resembles (fun v => values' (values v)) s x s'' x'' := by
  obtain ⟨row, name, hrow, hrow', hname⟩ := h.row
  obtain ⟨row', name', hrow'', hrow₂, hname'⟩ := h'.row
  obtain rfl := Option.some.inj (hrow'.symm.trans hrow'')
  refine ⟨⟨row, name', hrow, hrow₂, fun hk => (hname' hk).trans (hname hk)⟩,
    h'.nodes.trans h.nodes, ?_⟩
  rw [h'.arguments, h.arguments, List.map_map]
  rfl

/-- Fields have the same rows. -/
theorem Resembles.get?_of_field (h : Resembles values s x s' x') {row : SelectionRow}
    (hrow : s'.selections.get? x' = some row) (hk : row.kind = .field) :
    s.selections.get? x = some row := by
  obtain ⟨row₀, name, hrow₀, hrow', hname⟩ := h.row
  obtain rfl := Option.some.inj (hrow'.symm.trans hrow)
  have hk : row₀.kind = .field := hk
  rw [hrow₀, hname (by rw [hk]; nofun)]

theorem Resembles.get?_field (h : Resembles values s x s' x') {row : SelectionRow}
    (hrow : s.selections.get? x = some row) (hk : row.kind = .field) :
    s'.selections.get? x' = some row := by
  obtain ⟨row₀, name, hrow₀, hrow', hname⟩ := h.row
  obtain rfl := Option.some.inj (hrow₀.symm.trans hrow)
  rw [hrow', hname (by rw [hk]; nofun)]

/-- Every selection that is placed in `s'` is like one that is placed in `s`. -/
def Draws (s s' : Store) : Prop := ∀ q' ∈ s'.placements.rows, ∃ q ∈ s.placements.rows,
  ∃ values, Resembles values s q.child s' q'.child

theorem Draws.refl (hs : s.Closed) : Draws s s := fun q hq =>
  ⟨q, hq, _, .refl (hs.placements q hq).2.1⟩

theorem Draws.trans (h : Draws s s') (h' : Draws s' s'') : Draws s s'' := by
  intro q'' hq''
  obtain ⟨q', hq', _, hr'⟩ := h' q'' hq''
  obtain ⟨q, hq, _, hr⟩ := h q' hq'
  exact ⟨q, hq, _, hr.trans hr'⟩

/-! ## Stores that agree -/

/-- Whose variable it is, what it is called, the modifiers of its type and what it is by default. -/
def declaration (s : Store) (v : VariableRow) : Int × String × String × Option Value :=
  (v.document, v.name, v.type.modifiers, v.default?.map s.read)

/-- `s'` has the placements of `s` and documents, selections and declarations like those of `s`. -/
structure Agrees (s s' : Store) : Prop where
  kinds : ∀ d, (s'.documents.get? d).map (·.kind) = (s.documents.get? d).map (·.kind)
  placements : s'.placements = s.placements
  present : ∀ x, s'.selections.contains x = s.selections.contains x
  resembles : ∀ x, s.selections.contains x = true → Resembles (fun v => v) s x s' x
  declarations : ∀ id, (s'.declarations.get? id).map s'.declaration =
    (s.declarations.get? id).map s.declaration

theorem Agrees.refl (s : Store) : Agrees s s :=
  ⟨fun _ => rfl, rfl, fun _ => rfl, fun _ hx => .refl hx, fun _ => rfl⟩

theorem Agrees.trans (h : Agrees s s') (h' : Agrees s' s'') : Agrees s s'' where
  kinds := fun d => (h'.kinds d).trans (h.kinds d)
  placements := h'.placements.trans h.placements
  present := fun x => (h'.present x).trans (h.present x)
  resembles := fun x hx => by
    have hr := h.resembles x hx
    obtain ⟨_, _, _, hrow, _⟩ := hr.row
    exact hr.trans (h'.resembles x (contains_of_get? hrow))
  declarations := fun id => (h'.declarations id).trans (h.declarations id)

theorem Closed.arguments_of_reads (hs : s.Closed) (ha : s'.fieldArguments = s.fieldArguments)
    (reads : ∀ v, s.values.contains v → s'.read v = s.read v) (x : Int) :
    s'.arguments x = s.arguments x := by
  simp only [arguments, argumentRows, ha]
  refine List.map_congr_left fun a hm => ?_
  have hrow := mem_rows_of_get? (get?_of_mem (List.mem_filter.mp hm).1)
  rw [reads _ (hs.fieldArguments a.2 hrow).2]

theorem Closed.nodes_of_reads (hs : s.Closed) {site : Site}
    (hd : s'.directives site = s.directives site)
    (reads : ∀ v, s.values.contains v → s'.read v = s.read v) (x : Int) :
    s'.nodes site x = s.nodes site x := by
  rw [nodes, nodes, hd]
  refine List.map_congr_left fun use _ => ?_
  simp only [nodeOf, hd]
  congr 1
  refine List.map_congr_left fun a hm => ?_
  have hrow := mem_rows_of_get? (get?_of_mem (List.mem_filter.mp hm).1)
  rw [reads _ ((hs.directives site).arguments a.2 hrow).2]

/-- It is enough that the tables agree and that old values read as before. -/
theorem Agrees.of_reads (hs : s.Closed)
    (kinds : ∀ d, (s'.documents.get? d).map (·.kind) = (s.documents.get? d).map (·.kind))
    (hp : s'.placements = s.placements)
    (present : ∀ x, s'.selections.contains x = s.selections.contains x)
    (rows : ∀ x row, s.selections.get? x = some row → ∃ name,
      s'.selections.get? x = some { row with name := name } ∧
      (row.kind ≠ .fragment → name = row.name))
    (ha : s'.fieldArguments = s.fieldArguments)
    (hd : s'.directives .selection = s.directives .selection)
    (reads : ∀ v, s.values.contains v → s'.read v = s.read v)
    (declarations : ∀ id,
      (s'.declarations.get? id).map (fun v => (v.document, v.name, v.type.modifiers, v.default?)) =
      (s.declarations.get? id).map fun v => (v.document, v.name, v.type.modifiers, v.default?)) :
    Agrees s s' where
  kinds := kinds
  placements := hp
  present := present
  resembles := fun x hx => by
    obtain ⟨row, hrow⟩ := contains_iff.mp hx
    obtain ⟨name, hrow', hname⟩ := rows x row hrow
    refine ⟨⟨row, name, hrow, hrow', hname⟩, hs.nodes_of_reads hd reads x, ?_⟩
    rw [hs.arguments_of_reads ha reads, List.map_id']
  declarations := fun id => by
    have key := declarations id
    cases h : s.declarations.get? id with
    | none => simpa [h] using key
    | some v =>
      rw [h] at key
      obtain ⟨v', hv', he⟩ := Option.map_eq_some_iff.mp key
      obtain ⟨hdoc, hname, htype, hdefault⟩ : v'.document = v.document ∧ v'.name = v.name ∧
          v'.type.modifiers = v.type.modifiers ∧ v'.default? = v.default? := by simpa using he
      rw [hv', Option.map_some, Option.map_some, declaration, declaration, hdoc, hname, htype,
        hdefault]
      congr 4
      refine Option.map_congr fun d hd => reads d ?_
      exact (hs.declarations v (mem_rows_of_get? h)).2 d hd

end GraphDoc.Store
