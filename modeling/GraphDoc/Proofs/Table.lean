import GraphDoc.Store.Table
import Mathlib.Data.List.Basic

/-!
# Rows of tables

Membership and growth. A table grows by pushes only; what held of its old rows then holds still, and
a view that passes over the new rows does not change.
-/

set_option autoImplicit false

namespace GraphDoc.Table

variable {α β : Type} {t t' t'' : Table α} {P Q : α → Prop} {id : Int} {a : α}

@[simp] theorem entries_push (t : Table α) (a : α) :
    (t.push a).entries = t.entries ++ [(t.nextId, a)] := rfl

@[simp] theorem rows_push (t : Table α) (a : α) : (t.push a).rows = t.rows ++ [a] := by
  simp [rows]

@[simp] theorem issued_push (t : Table α) (a : α) : (t.push a).issued = t.issued + 1 := rfl

theorem forall_rows_push : (∀ b ∈ (t.push a).rows, P b) ↔ (∀ b ∈ t.rows, P b) ∧ P a := by
  simp [or_imp, forall_and]

theorem mem_rows_iff : a ∈ t.rows ↔ ∃ id, t.get? id = some a := by
  simp only [rows, List.mem_map, get?_eq_some_iff]
  constructor
  · rintro ⟨⟨id, b⟩, h, rfl⟩
    exact ⟨id, h⟩
  · rintro ⟨id, h⟩
    exact ⟨(id, a), h, rfl⟩

theorem mem_rows_of_get? (h : t.get? id = some a) : a ∈ t.rows := mem_rows_iff.mpr ⟨id, h⟩

theorem get?_of_mem {e : Int × α} (h : e ∈ t.entries) : t.get? e.1 = some e.2 :=
  t.get?_eq_some_iff.mpr h

theorem mem_of_get? (h : t.get? id = some a) : (id, a) ∈ t.entries := t.get?_eq_some_iff.mp h

theorem le_issued (h : t.get? id = some a) : id ≤ t.issued := (t.bounded _ (mem_of_get? h)).2

theorem contains_iff : t.contains id = true ↔ ∃ a, t.get? id = some a := by
  rw [contains, Option.isSome_iff_exists]

theorem contains_of_get? (h : t.get? id = some a) : t.contains id = true :=
  contains_iff.mpr ⟨a, h⟩

theorem le_issued_of_contains (h : t.contains id = true) : id ≤ t.issued := by
  obtain ⟨a, ha⟩ := contains_iff.mp h
  exact le_issued ha

theorem issued_lt_nextId (t : Table α) : (t.issued : Int) < t.nextId := by
  simp only [nextId]
  omega

@[simp] theorem get?_push_nextId (t : Table α) (a : α) : (t.push a).get? t.nextId = some a := by
  rw [get?_push, if_pos rfl]

theorem get?_push_of_le (h : id ≤ t.issued) : (t.push a).get? id = t.get? id := by
  rw [get?_push, if_neg]
  have := t.issued_lt_nextId
  omega

theorem get?_push_of_get? {b : α} (h : t.get? id = some b) : (t.push a).get? id = some b := by
  rw [get?_push_of_le (le_issued h), h]

theorem contains_push_of_contains (h : t.contains id = true) : (t.push a).contains id = true := by
  obtain ⟨b, hb⟩ := contains_iff.mp h
  exact contains_of_get? (get?_push_of_get? hb)

@[simp] theorem contains_push_nextId (t : Table α) (a : α) :
    (t.push a).contains t.nextId = true := contains_of_get? (t.get?_push_nextId a)

@[simp] theorem contains_modify (t : Table α) (id other : Int) (f : α → α) :
    (t.modify id f).contains other = t.contains other := by
  rw [contains, contains, get?_modify]
  split <;> simp

@[simp] theorem contains_mapRows (t : Table α) (f : Int → α → α) (id : Int) :
    (t.mapRows f).contains id = t.contains id := by
  rw [contains, contains, get?_mapRows]
  simp

theorem mem_rows_mapRows {f : Int → α → α} (h : a ∈ (t.mapRows f).rows) :
    ∃ id b, t.get? id = some b ∧ a = f id b := by
  obtain ⟨id, hid⟩ := mem_rows_iff.mp h
  rw [get?_mapRows, Option.map_eq_some_iff] at hid
  obtain ⟨b, hb, rfl⟩ := hid
  exact ⟨id, b, hb, rfl⟩

theorem mem_rows_modify {f : α → α} (h : a ∈ (t.modify id f).rows) :
    a ∈ t.rows ∨ ∃ b, t.get? id = some b ∧ a = f b := by
  obtain ⟨n, b, hb, rfl⟩ := mem_rows_mapRows h
  by_cases hn : n = id
  · subst hn
    exact .inr ⟨b, hb, if_pos rfl⟩
  · rw [if_neg hn]
    exact .inl (mem_rows_of_get? hb)

theorem mem_rows_filterRows {keep : Int → α → Bool} (h : a ∈ (t.filterRows keep).rows) :
    a ∈ t.rows := by
  obtain ⟨id, hid⟩ := mem_rows_iff.mp h
  rw [get?_filterRows, Option.filter_eq_some_iff] at hid
  exact mem_rows_of_get? hid.1

theorem mem_rows_erase (h : a ∈ (t.erase id).rows) : a ∈ t.rows := mem_rows_filterRows h

/-- A view of some rows does not need their numbers. -/
theorem filter_entries_modify (t : Table α) (id : Int) (f : α → α) (q : α → Bool)
    (hq : ∀ a, q (f a) = q a) : (t.modify id f).entries.filter (fun e => q e.2) =
      (t.entries.filter fun e => q e.2).map fun e => if e.1 = id then (e.1, f e.2) else e := by
  have hentries : (t.modify id f).entries =
      t.entries.map fun e => if e.1 = id then (e.1, f e.2) else e := by
    refine List.map_congr_left fun e _ => ?_
    by_cases he : e.1 = id <;> simp [he]
  rw [hentries, List.filter_map]
  congr 1
  refine List.filter_congr fun e _ => ?_
  simp only [Function.comp_apply]
  split
  · exact hq e.2
  · rfl

theorem map_filter_entries (t : Table α) (q : α → Bool) (g : α → β) :
    (t.entries.filter fun e => q e.2).map (fun e => g e.2) = (t.rows.filter q).map g := by
  simp only [rows, List.filter_map, List.map_map, Function.comp_def]

/-! ## Mapping -/

theorem entries_mapRows (t : Table α) (f : Int → α → α) :
    (t.mapRows f).entries = t.entries.map fun e => (e.1, f e.1 e.2) := rfl

theorem eq_of_entries (he : t.entries = t'.entries) (hi : t.issued = t'.issued) : t = t' := by
  cases t
  cases t'
  cases he
  cases hi
  rfl

theorem mapRows_congr {f g : Int → α → α} (h : ∀ e ∈ t.entries, f e.1 e.2 = g e.1 e.2) :
    t.mapRows f = t.mapRows g := by
  refine eq_of_entries (List.map_congr_left fun e he => ?_) rfl
  rw [h e he]

theorem mapRows_mapRows (t : Table α) (f g : Int → α → α) :
    (t.mapRows f).mapRows g = t.mapRows fun id a => g id (f id a) :=
  eq_of_entries (by simp [entries_mapRows]) rfl

theorem mapRows_id (t : Table α) : (t.mapRows fun _ a => a) = t :=
  eq_of_entries (by simp [entries_mapRows]) rfl

/-- Rows of different numbers are modified one after the other. -/
theorem foldl_modify (f : α → α) {ids : List Int} (hids : ids.Nodup) (t : Table α) :
    ids.foldl (fun t id => t.modify id f) t = t.mapRows fun id a => if id ∈ ids then f a else a := by
  induction ids generalizing t with
  | nil => simp [mapRows_id]
  | cons n ids ih =>
    obtain ⟨hn, hids⟩ := List.nodup_cons.mp hids
    rw [List.foldl_cons, ih hids, modify, mapRows_mapRows]
    refine mapRows_congr fun e _ => ?_
    by_cases he : e.1 = n
    · simp [he, hn]
    · simp [he]

/-! ## Growth -/

/-- `t'` is `t` with more rows, each of which satisfies `P`. -/
inductive Grows (P : α → Prop) (t : Table α) : Table α → Prop where
  | refl : Grows P t t
  | push {t' : Table α} {a : α} : Grows P t t' → P a → Grows P t (t'.push a)

namespace Grows

theorem mono (h : Grows P t t') (hPQ : ∀ a, P a → Q a) : Grows Q t t' := by
  induction h with
  | refl => exact .refl
  | push _ ha ih => exact .push ih (hPQ _ ha)

theorem trans (h : Grows P t t') (h' : Grows P t' t'') : Grows P t t'' := by
  induction h' with
  | refl => exact h
  | push _ ha ih => exact .push ih ha

theorem issued_le (h : Grows P t t') : t.issued ≤ t'.issued := by
  induction h with
  | refl => exact Nat.le_refl _
  | push _ _ ih =>
    rw [issued_push]
    omega

theorem get?_of_le (h : Grows P t t') (hid : id ≤ t.issued) : t'.get? id = t.get? id := by
  induction h with
  | refl => rfl
  | push h _ ih =>
    have := h.issued_le
    rw [get?_push_of_le (by omega), ih]

theorem get?_of_get? (h : Grows P t t') (ha : t.get? id = some a) : t'.get? id = some a := by
  rw [h.get?_of_le (le_issued ha), ha]

theorem contains (h : Grows P t t') (hc : t.contains id = true) : t'.contains id = true := by
  obtain ⟨a, ha⟩ := contains_iff.mp hc
  exact contains_of_get? (h.get?_of_get? ha)

theorem mem_rows (h : Grows P t t') (ha : a ∈ t.rows) : a ∈ t'.rows := by
  obtain ⟨id, hid⟩ := mem_rows_iff.mp ha
  exact mem_rows_of_get? (h.get?_of_get? hid)

/-- Every row is an old one or satisfies what the new ones satisfy. -/
theorem mem_entries (h : Grows P t t') {e : Int × α} (he : e ∈ t'.entries) :
    e ∈ t.entries ∨ ((t.issued : Int) < e.1 ∧ P e.2) := by
  induction h with
  | refl => exact .inl he
  | @push t' a h ha ih =>
    rw [entries_push, List.mem_append] at he
    rcases he with he | he
    · exact ih he
    · have hle := h.issued_le
      have hlt := t'.issued_lt_nextId
      obtain rfl := List.mem_singleton.mp he
      exact .inr ⟨by simp only; omega, ha⟩

theorem rows_or (h : Grows P t t') (ha : a ∈ t'.rows) : a ∈ t.rows ∨ P a := by
  obtain ⟨id, hid⟩ := mem_rows_iff.mp ha
  rcases h.mem_entries (mem_of_get? hid) with he | ⟨_, hP⟩
  · exact .inl (mem_rows_of_get? (get?_of_mem he))
  · exact .inr hP

/-- A view that leaves out the new rows stays as it was. -/
theorem filter_entries (h : Grows P t t') {q : α → Bool} (hq : ∀ a, P a → q a = false) :
    t'.entries.filter (fun e => q e.2) = t.entries.filter (fun e => q e.2) := by
  induction h with
  | refl => rfl
  | push _ ha ih => simp [ih, hq _ ha]

theorem filter_rows (h : Grows P t t') {q : α → Bool} (hq : ∀ a, P a → q a = false) :
    t'.rows.filter q = t.rows.filter q := by
  induction h with
  | refl => rfl
  | push _ ha ih => simp [ih, hq _ ha]

theorem any_rows (h : Grows P t t') {q : α → Bool} (hq : ∀ a, P a → q a = false) :
    t'.rows.any q = t.rows.any q := by
  induction h with
  | refl => rfl
  | push _ ha ih => simp [ih, hq _ ha]

theorem find?_or (h : Grows P t t') {q : Int × α → Bool} {e : Int × α}
    (hf : t'.entries.find? q = some e) :
    t.entries.find? q = some e ∨ (t.issued : Int) < e.1 ∧ P e.2 := by
  induction h with
  | refl => exact .inl hf
  | @push t' a h ha ih =>
    rw [entries_push, List.find?_append] at hf
    cases hold : t'.entries.find? q with
    | some e' =>
      rw [hold] at hf
      cases hf
      exact ih hold
    | none =>
      rw [hold] at hf
      obtain rfl := List.mem_singleton.mp (List.mem_of_find?_eq_some hf)
      have := h.issued_le
      have := t'.issued_lt_nextId
      exact .inr ⟨by simp only; omega, ha⟩

/-- A table that has no row of the new kind has not grown. -/
theorem eq_of_not (h : Grows P t t') (hP : ∀ a ∈ t'.rows, ¬ P a) : t' = t := by
  cases h with
  | refl => rfl
  | push _ ha => exact absurd ha (hP _ (by simp))

theorem entries_prefix (h : Grows P t t') : t.entries <+: t'.entries := by
  induction h with
  | refl => exact List.prefix_refl _
  | push _ _ ih => exact ih.trans (List.prefix_append _ _)

theorem size_le (h : Grows P t t') : t.size ≤ t'.size := h.entries_prefix.length_le

theorem foldl_push (as : List α) (hP : ∀ a ∈ as, P a) (h : Grows P t t') :
    Grows P t (as.foldl Table.push t') := by
  induction as generalizing t' with
  | nil => exact h
  | cons a as ih =>
    exact ih (fun b hb => hP b (List.mem_cons_of_mem a hb)) (.push h (hP a List.mem_cons_self))

end Grows

@[simp] theorem rows_foldl_push (t : Table α) (as : List α) :
    (as.foldl Table.push t).rows = t.rows ++ as := by
  induction as generalizing t with
  | nil => simp
  | cons a as ih => simp [ih]

end GraphDoc.Table
