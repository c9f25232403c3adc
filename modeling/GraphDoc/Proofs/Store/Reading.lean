import GraphDoc.Proofs.Except
import GraphDoc.Proofs.Store.Sound
import Mathlib.Data.List.Forall2

/-!
# Reading values

In a sound store every value can be read, and `Store.read` gives it without the depth and the
failures of `Store.value`. Two stores whose rows simulate each other read the same values.
-/

set_option autoImplicit false

namespace GraphDoc

open Table

theorem map_eq_map_of_forall₂ {α β γ : Type} {R : α → β → Prop} {f : α → γ} {g : β → γ}
    {l : List α} {l' : List β} (h : List.Forall₂ R l l')
    (hR : ∀ a ∈ l, ∀ b, R a b → g b = f a) : l'.map g = l.map f := by
  induction h with
  | nil => rfl
  | @cons a b l l' hab _ ih =>
    rw [List.map_cons, List.map_cons, hR a List.mem_cons_self b hab,
      ih fun c hc => hR c (List.mem_cons_of_mem a hc)]

theorem forall₂_of_map_eq_map {α β γ : Type} {f : α → γ} {g : β → γ} {l : List α} {l' : List β}
    (h : l'.map g = l.map f) : List.Forall₂ (fun a b => g b = f a) l l' := by
  induction l generalizing l' with
  | nil =>
    rw [List.map_eq_nil_iff.mp h]
    exact .nil
  | cons a l ih =>
    obtain ⟨b, k, rfl, hb, hk⟩ := List.map_eq_cons_iff.mp h
    exact .cons hb (ih hk)

/-- One element more makes the count strictly greater. -/
theorem countP_lt_countP {α : Type} {p q : α → Bool} {l : List α}
    (hpq : ∀ a ∈ l, p a → q a) {a : α} (ha : a ∈ l) (hp : p a = false)
    (hq : q a) : l.countP p < l.countP q := by
  obtain ⟨l₁, l₂, rfl⟩ := List.append_of_mem ha
  have h₁ : l₁.countP p ≤ l₁.countP q :=
    List.countP_mono_left fun b hb => hpq b (List.mem_append_left _ hb)
  have h₂ : l₂.countP p ≤ l₂.countP q :=
    List.countP_mono_left fun b hb => hpq b (by simp [hb])
  rw [List.countP_append, List.countP_append, List.countP_cons_of_pos hq,
    List.countP_cons_of_neg (by simp [hp])]
  omega

namespace Store

variable {s s' : Store} {G G' : Int → Prop}

theorem mem_linksOf {id : Int} {l : Int × ValueLink} :
    l ∈ s.linksOf id ↔ s.valueLinks.get? l.1 = some l.2 ∧ l.2.parent = id := by
  rw [linksOf, List.mem_filter, get?_eq_some_iff]
  simp

theorem linksOf_addValueLink (s : Store) (row : ValueLink) (id : Int) :
    (s.addValueLink row).1.linksOf id =
      s.linksOf id ++ if row.parent = id then [(s.valueLinks.nextId, row)] else [] := by
  simp only [linksOf, addValueLink, entries_push, List.filter_append]
  by_cases h : row.parent = id <;> simp [h]

theorem mem_rows_of_mem_linksOf {id : Int} {l : Int × ValueLink} (h : l ∈ s.linksOf id) :
    l.2 ∈ s.valueLinks.rows := mem_rows_of_get? (mem_linksOf.mp h).1

theorem owns_of_mem_linksOf {id : Int} {l : Int × ValueLink} (h : l ∈ s.linksOf id) :
    s.owns (.child l.1) = some l.2.value :=
  Option.map_eq_some_iff.mpr ⟨l.2, (mem_linksOf.mp h).1, rfl⟩

theorem Sound.contains_child (h : s.Sound G) {id : Int} {l : Int × ValueLink}
    (hl : l ∈ s.linksOf id) : s.values.contains l.2.value :=
  (h.closed.valueLinks _ (mem_rows_of_mem_linksOf hl)).2

theorem Sound.lt_child (h : s.Sound G) {id : Int} {l : Int × ValueLink} (hl : l ∈ s.linksOf id) :
    id < l.2.value := by
  have := h.descends _ (mem_rows_of_mem_linksOf hl)
  rwa [(mem_linksOf.mp hl).2] at this

theorem Sound.linksOf_eq_nil (h : s.Sound G) {id : Int} (hid : s.values.contains id ≠ true) :
    s.linksOf id = [] := by
  refine List.eq_nil_iff_forall_not_mem.mpr fun l hl => hid ?_
  have := (h.closed.valueLinks _ (mem_rows_of_mem_linksOf hl)).1
  rwa [(mem_linksOf.mp hl).2] at this

/-- What holds of a value if it holds of its children holds of all values. -/
theorem Sound.descend (h : s.Sound G) {P : Int → Prop}
    (step : ∀ id, (∀ l ∈ s.linksOf id, P l.2.value) → P id) (id : Int) : P id := by
  induction hn : ((s.values.issued : Int) - id).toNat using Nat.strongRecOn generalizing id with
  | ind n ih =>
    refine step id fun l hl => ih _ ?_ l.2.value rfl
    have := h.lt_child hl
    have := le_issued_of_contains (h.contains_child hl)
    omega

/-! ## Depth -/

/-- How many rows stand at a number or after it, a bound for the depth of the value. -/
def rowsFrom (s : Store) (id : Int) : Nat := s.values.entries.countP fun e => id ≤ e.1

theorem rowsFrom_lt_of_lt {id n : Int} {row : ValueRow} (h : s.values.get? id = some row)
    (hlt : id < n) : s.rowsFrom n < s.rowsFrom id := by
  refine countP_lt_countP (fun e _ he => ?_) (mem_of_get? h) ?_ ?_
  · simp only [decide_eq_true_eq] at he ⊢
    omega
  · simpa using hlt
  · simp

/-- A depth that suffices reads what any greater depth reads. -/
theorem Sound.valueWithin_stable (h : s.Sound G) {n m : Nat} {id : Int} (hn : s.rowsFrom id < n)
    (hm : s.rowsFrom id < m) : s.valueWithin n id = s.valueWithin m id := by
  induction n generalizing m id with
  | zero => omega
  | succ n ih =>
    cases m with
    | zero => omega
    | succ m =>
      rw [valueWithin, valueWithin]
      cases hrow : s.values.get? id with
      | none => rfl
      | some row =>
        have below : ∀ l ∈ s.linksOf id,
            s.valueWithin n l.2.value = s.valueWithin m l.2.value := by
          intro l hl
          have := rowsFrom_lt_of_lt hrow (h.lt_child hl)
          exact ih (by omega) (by omega)
        simp only
        rw [mapM_congr fun l hl => by rw [below l hl]]

theorem rowsFrom_le_size (s : Store) (id : Int) : s.rowsFrom id ≤ s.values.size :=
  List.countP_le_length

/-! ## Values without failure -/

/-- The value of a row. -/
def read (s : Store) (id : Int) : Value :=
  match s.value id with
  | .ok v => v
  | .error _ => default

/-- Only the values and their links matter to reading. -/
theorem value_of_tables (hv : s'.values = s.values) (hl : s'.valueLinks = s.valueLinks)
    (id : Int) : s'.value id = s.value id := by
  have within : ∀ n id, s'.valueWithin n id = s.valueWithin n id := by
    intro n
    induction n with
    | zero => exact fun _ => rfl
    | succ n ih =>
      intro id
      simp only [valueWithin, linksOf, hv, hl, ih]
  rw [value, value, hv, within]

theorem read_of_tables (hv : s'.values = s.values) (hl : s'.valueLinks = s.valueLinks) (id : Int) :
    s'.read id = s.read id := by
  rw [read, read, value_of_tables hv hl]

theorem Sound.value_eq (h : s.Sound G) {id : Int} {row : ValueRow}
    (hrow : s.values.get? id = some row) :
    s.value id = .ok (.node row.kind row.raw
      ((s.linksOf id).map fun l => (l.2.name?, s.read l.2.value))) := by
  induction id using h.descend generalizing row with
  | step id ih =>
    have below : ∀ l ∈ s.linksOf id,
        s.valueWithin s.values.size l.2.value = .ok (s.read l.2.value) := by
      intro l hl
      obtain ⟨r, hr⟩ := contains_iff.mp (h.contains_child hl)
      have hlt := rowsFrom_lt_of_lt hrow (h.lt_child hl)
      have hle := s.rowsFrom_le_size id
      have hs := @valueWithin_stable s G h s.values.size (s.values.size + 1) l.2.value
        (by omega) (by omega)
      rw [hs]
      change s.value l.2.value = _
      rw [read, ih l hl hr]
    rw [value, valueWithin, hrow]
    simp only
    rw [mapM_eq_ok fun l hl => by rw [below l hl]; rfl]
    rfl

theorem Sound.read_eq (h : s.Sound G) {id : Int} {row : ValueRow}
    (hrow : s.values.get? id = some row) :
    s.read id = .node row.kind row.raw
      ((s.linksOf id).map fun l => (l.2.name?, s.read l.2.value)) := by
  rw [read, h.value_eq hrow]

theorem Sound.value_eq_read (h : s.Sound G) {id : Int} (hid : s.values.contains id) :
    s.value id = .ok (s.read id) := by
  obtain ⟨row, hrow⟩ := contains_iff.mp hid
  rw [h.value_eq hrow, h.read_eq hrow]

/-- Rows that simulate each other, down to their children, have the same value. -/
theorem Sound.read_sim (h : s.Sound G) (h' : s'.Sound G') {R : Int → Int → Prop}
    (hR : ∀ a b, R a b → ∃ ra rb, s.values.get? a = some ra ∧ s'.values.get? b = some rb ∧
      rb.kind = ra.kind ∧ rb.raw = ra.raw ∧
      List.Forall₂ (fun l l' => l'.2.name? = l.2.name? ∧ R l.2.value l'.2.value)
        (s.linksOf a) (s'.linksOf b))
    {a b : Int} (hab : R a b) : s'.read b = s.read a := by
  induction a using h.descend generalizing b with
  | step a ih =>
    obtain ⟨ra, rb, ha, hb, hk, ht, hl⟩ := hR a b hab
    rw [h.read_eq ha, h'.read_eq hb, hk, ht, map_eq_map_of_forall₂ hl fun l hl l' hll => ?_]
    rw [hll.1, ih l hl hll.2]

/-- A set of rows that is closed under children and stays as it is reads as before. -/
theorem Sound.read_frame (h : s.Sound G) (h' : s'.Sound G') {P : Int → Prop}
    (hP : ∀ id, P id → s.values.contains id ∧ s'.values.get? id = s.values.get? id ∧
      s'.linksOf id = s.linksOf id ∧ ∀ l ∈ s.linksOf id, P l.2.value)
    {id : Int} (hid : P id) : s'.read id = s.read id := by
  refine h.read_sim h' (R := fun a b => a = b ∧ P a) ?_ ⟨rfl, hid⟩
  rintro a b ⟨rfl, ha⟩
  obtain ⟨hc, hv, hl, hP⟩ := hP a ha
  obtain ⟨row, hrow⟩ := contains_iff.mp hc
  refine ⟨row, row, hrow, hv.trans hrow, rfl, rfl, ?_⟩
  rw [hl]
  exact List.forall₂_same.mpr fun l hl => ⟨rfl, rfl, hP l hl⟩

end Store

end GraphDoc
