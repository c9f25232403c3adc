/-!
# Tables

A table numbers its rows from 1 in the order in which they come and never gives a number twice, so
erasing a row leaves a gap. `Table.get?` is the view through which the operations are described.

A keyed table addresses its rows by a key of theirs and lists them in the order in which the keys
first came.
-/

set_option autoImplicit false

namespace GraphDoc

/-- Rows with their numbers; `issued` is the last number given. -/
structure Table (α : Type) where
  entries : List (Int × α) := []
  issued : Nat := 0
  ordered : entries.Pairwise (fun a b => a.1 < b.1) := by simp
  bounded : ∀ e ∈ entries, 0 < e.1 ∧ e.1 ≤ issued := by simp
deriving DecidableEq

namespace Table

variable {α : Type}

instance : Inhabited (Table α) := ⟨{}⟩

def get? (t : Table α) (id : Int) : Option α := t.entries.lookup id

def contains (t : Table α) (id : Int) : Bool := (t.get? id).isSome

def rows (t : Table α) : List α := t.entries.map (·.2)

def size (t : Table α) : Nat := t.entries.length

def nextId (t : Table α) : Int := (t.issued : Int) + 1

def push (t : Table α) (a : α) : Table α where
  entries := t.entries ++ [(t.nextId, a)]
  issued := t.issued + 1
  ordered := by
    refine List.pairwise_append.mpr ⟨t.ordered, by simp, ?_⟩
    intro e he f hf
    have := (t.bounded e he).2
    simp only [List.mem_singleton] at hf
    subst hf
    simp only [nextId]
    omega
  bounded := by
    intro e he
    rcases List.mem_append.mp he with he | he
    · have := t.bounded e he
      omega
    · simp only [List.mem_singleton] at he
      subst he
      simp only [nextId]
      omega

def mapRows (t : Table α) (f : Int → α → α) : Table α where
  entries := t.entries.map fun e => (e.1, f e.1 e.2)
  issued := t.issued
  ordered := List.pairwise_map.mpr t.ordered
  bounded := by
    intro e he
    obtain ⟨e', he', rfl⟩ := List.mem_map.mp he
    exact t.bounded e' he'

def modify (t : Table α) (id : Int) (f : α → α) : Table α :=
  t.mapRows fun n a => if n = id then f a else a

def filterRows (t : Table α) (keep : Int → α → Bool) : Table α where
  entries := t.entries.filter fun e => keep e.1 e.2
  issued := t.issued
  ordered := t.ordered.filter _
  bounded := fun e he => t.bounded e ((List.mem_filter.mp he).1)

def erase (t : Table α) (id : Int) : Table α := t.filterRows fun n _ => n ≠ id

theorem get?_eq_some_iff (t : Table α) {id : Int} {a : α} :
    t.get? id = some a ↔ (id, a) ∈ t.entries := by
  have key : ∀ l : List (Int × α), l.Pairwise (fun a b => a.1 < b.1) →
      (l.lookup id = some a ↔ (id, a) ∈ l) := by
    intro l
    induction l with
    | nil => simp
    | cons e l ih =>
      intro h
      obtain ⟨hlt, hl⟩ := List.pairwise_cons.mp h
      rw [List.lookup_cons]
      by_cases he : id = e.1
      · subst he
        constructor
        · intro h'
          simp only [beq_self_eq_true] at h'
          cases h'
          exact List.mem_cons_self
        · intro h'
          rcases List.mem_cons.mp h' with h' | h'
          · rw [← h']
            simp
          · exact absurd (hlt _ h') (Int.lt_irrefl _)
      · have hb : (id == e.1) = false := by simpa using he
        rw [hb, ih hl, List.mem_cons]
        refine ⟨Or.inr, fun h' => h'.resolve_left fun h'' => he ?_⟩
        rw [← h'']
  exact key t.entries t.ordered

theorem get?_nextId (t : Table α) : t.get? t.nextId = none := by
  cases h : t.get? t.nextId with
  | none => rfl
  | some a =>
    have := (t.bounded _ (t.get?_eq_some_iff.mp h)).2
    simp only [nextId] at this
    omega

theorem get?_push (t : Table α) (a : α) (id : Int) :
    (t.push a).get? id = if id = t.nextId then some a else t.get? id := by
  apply Option.ext
  intro b
  rw [get?_eq_some_iff]
  by_cases h : id = t.nextId
  · have hn : (id, b) ∉ t.entries := by
      rw [← get?_eq_some_iff, h, get?_nextId]
      simp
    simp only [push, h, ↓reduceIte, Option.some.injEq, List.mem_append, List.mem_singleton,
      Prod.mk.injEq, true_and]
    rw [h] at hn
    exact ⟨fun hm => (hm.resolve_left hn).symm, fun hb => Or.inr hb.symm⟩
  · simp [push, h, get?_eq_some_iff]

theorem get?_mapRows (t : Table α) (f : Int → α → α) (id : Int) :
    (t.mapRows f).get? id = (t.get? id).map (f id) := by
  apply Option.ext
  intro b
  simp only [get?_eq_some_iff, mapRows, List.mem_map, Option.map_eq_some_iff, Prod.mk.injEq]
  constructor
  · rintro ⟨⟨n, a⟩, h, rfl, rfl⟩
    exact ⟨a, h, rfl⟩
  · rintro ⟨a, h, rfl⟩
    exact ⟨(id, a), h, rfl, rfl⟩

theorem get?_filterRows (t : Table α) (keep : Int → α → Bool) (id : Int) :
    (t.filterRows keep).get? id = (t.get? id).filter (keep id) := by
  apply Option.ext
  intro b
  simp [get?_eq_some_iff, filterRows, Option.filter_eq_some_iff]

theorem get?_modify (t : Table α) (id other : Int) (f : α → α) :
    (t.modify id f).get? other = if other = id then (t.get? other).map f else t.get? other := by
  rw [modify, get?_mapRows]
  by_cases h : other = id
  · simp [h]
  · simp [h]

theorem get?_erase (t : Table α) (id other : Int) :
    (t.erase id).get? other = if other = id then none else t.get? other := by
  rw [erase, get?_filterRows]
  by_cases h : other = id
  · cases t.get? other <;> simp [h, Option.filter]
  · cases t.get? other <;> simp [h, Option.filter]

/-! ## Full tables

Nothing was erased from a full table, so its numbers are those from 1 to the last one given. -/

def isFull (t : Table α) : Bool := t.entries.length = t.issued

def containsKnowing (t : Table α) (full : Bool) (id : Int) : Bool :=
  if full then 0 < id && id ≤ t.issued else t.contains id

theorem length_le_of_ascending {l : List Int} {low high : Int} (hl : l.Pairwise (· < ·))
    (hlow : ∀ n ∈ l, low < n) (hhigh : ∀ n ∈ l, n ≤ high) (h : low ≤ high) :
    low + (l.length : Int) ≤ high := by
  induction l generalizing low with
  | nil => simpa using h
  | cons m l ih =>
    obtain ⟨hm, hl⟩ := List.pairwise_cons.mp hl
    have hlow' := hlow m List.mem_cons_self
    have hhigh' := hhigh m List.mem_cons_self
    have := ih hl hm (fun n hn => hhigh n (List.mem_cons_of_mem _ hn)) hhigh'
    simp only [List.length_cons]
    omega

/-- Ascending numbers that fill a range are all of it. -/
theorem mem_of_ascending {l : List Int} {low : Int} (hl : l.Pairwise (· < ·))
    (hlow : ∀ n ∈ l, low < n) (hhigh : ∀ n ∈ l, n ≤ low + (l.length : Int)) {id : Int}
    (h : low < id) (h' : id ≤ low + (l.length : Int)) : id ∈ l := by
  induction l generalizing low with
  | nil =>
    simp only [List.length_nil] at h'
    omega
  | cons m l ih =>
    obtain ⟨hm, hl⟩ := List.pairwise_cons.mp hl
    have hlow' := hlow m List.mem_cons_self
    have hhigh' := hhigh m List.mem_cons_self
    have hrest := fun n hn => hhigh n (List.mem_cons_of_mem m hn)
    simp only [List.length_cons] at h' hhigh' hrest
    have hlen := length_le_of_ascending hl hm hrest hhigh'
    have hfirst : m = low + 1 := by omega
    by_cases he : id = m
    · exact he ▸ List.mem_cons_self
    · refine List.mem_cons_of_mem _ (ih hl hm (fun n hn => ?_) (by omega) (by omega))
      have := hrest n hn
      omega

@[simp] theorem containsKnowing_isFull (t : Table α) (id : Int) :
    t.containsKnowing t.isFull id = t.contains id := by
  by_cases hfull : t.isFull = true
  · have hlen : t.entries.length = t.issued := by simpa [isFull] using hfull
    rw [containsKnowing, if_pos hfull, Bool.eq_iff_iff, contains, Option.isSome_iff_exists]
    simp only [Bool.and_eq_true, decide_eq_true_eq, get?_eq_some_iff]
    constructor
    · rintro ⟨h, h'⟩
      have hmem : id ∈ t.entries.map (·.1) := by
        refine @mem_of_ascending _ 0 (List.pairwise_map.mpr t.ordered) ?_ ?_ _ h ?_
        · intro n hn
          obtain ⟨e, he, rfl⟩ := List.mem_map.mp hn
          exact (t.bounded e he).1
        · intro n hn
          obtain ⟨e, he, rfl⟩ := List.mem_map.mp hn
          have := (t.bounded e he).2
          simp only [List.length_map, hlen]
          omega
        · simp only [List.length_map, hlen]
          omega
      obtain ⟨⟨n, a⟩, he, rfl⟩ := List.mem_map.mp hmem
      exact ⟨a, he⟩
    · rintro ⟨a, ha⟩
      exact t.bounded _ ha
  · rw [containsKnowing, if_neg hfull]

end Table

structure Keyed (κ α : Type) where
  rows : List (κ × α) := []
deriving DecidableEq, Inhabited

namespace Keyed

variable {κ α : Type} [DecidableEq κ]

def get? (t : Keyed κ α) (key : κ) : Option α := t.rows.lookup key

def contains (t : Keyed κ α) (key : κ) : Bool := t.rows.any (·.1 = key)

def modify (t : Keyed κ α) (key : κ) (f : α → α) : Keyed κ α :=
  ⟨t.rows.map fun row => if row.1 = key then (row.1, f row.2) else row⟩

def add (t : Keyed κ α) (key : κ) (a : α) : Keyed κ α :=
  if t.contains key then t else ⟨t.rows ++ [(key, a)]⟩

def upsert (t : Keyed κ α) (key : κ) (a : α) (f : α → α) : Keyed κ α :=
  if t.contains key then t.modify key f else t.add key a

def put (t : Keyed κ α) (key : κ) (a : α) : Keyed κ α := t.upsert key a fun _ => a

theorem lookup_cons_ite (row : κ × α) (l : List (κ × α)) (key : κ) :
    (row :: l).lookup key = if key = row.1 then some row.2 else l.lookup key := by
  rw [List.lookup_cons]
  by_cases h : key = row.1
  · simp [h]
  · simp [h, beq_false_of_ne h]

theorem contains_eq (t : Keyed κ α) (key : κ) : t.contains key = (t.get? key).isSome := by
  obtain ⟨l⟩ := t
  simp only [get?, contains]
  induction l with
  | nil => rfl
  | cons row l ih =>
    rw [lookup_cons_ite, List.any_cons, ih]
    by_cases h : key = row.1
    · simp [h]
    · simp [h, Ne.symm h]

theorem get?_modify (t : Keyed κ α) (key other : κ) (f : α → α) :
    (t.modify key f).get? other = if other = key then (t.get? other).map f else t.get? other := by
  obtain ⟨l⟩ := t
  simp only [get?, modify]
  induction l with
  | nil => simp
  | cons row l ih =>
    rw [List.map_cons, lookup_cons_ite, lookup_cons_ite, ih]
    by_cases hr : row.1 = key
    · subst hr
      by_cases ho : other = row.1 <;> simp [ho]
    · by_cases ho : other = row.1
      · subst ho
        simp [hr]
      · simp [hr, ho]

theorem get?_add (t : Keyed κ α) (key other : κ) (a : α) :
    (t.add key a).get? other =
      if other = key then some ((t.get? key).getD a) else t.get? other := by
  rw [add, contains_eq]
  cases h : t.get? key with
  | some b =>
    by_cases ho : other = key
    · simp [ho, h]
    · simp [ho]
  | none =>
    simp only [get?] at h ⊢
    by_cases ho : other = key
    · subst ho
      simp [List.lookup_append, h]
    · simp [List.lookup_append, lookup_cons_ite, ho]

theorem get?_upsert (t : Keyed κ α) (key other : κ) (a : α) (f : α → α) :
    (t.upsert key a f).get? other =
      if other = key then some (((t.get? key).map f).getD a) else t.get? other := by
  rw [upsert, contains_eq]
  cases h : t.get? key with
  | some b =>
    rw [Option.isSome_some, if_pos rfl, get?_modify]
    by_cases ho : other = key <;> simp [ho, h]
  | none =>
    rw [Option.isSome_none, if_neg (by simp), get?_add, h]
    simp

theorem get?_put (t : Keyed κ α) (key other : κ) (a : α) :
    (t.put key a).get? other = if other = key then some a else t.get? other := by
  rw [put, get?_upsert]
  cases t.get? key <;> simp

end Keyed

end GraphDoc
