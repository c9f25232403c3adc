/-!
# Order and distinctness

A stable insertion sort, the removal of repeated entries and maps kept in the order of their
names. All three recurse on the list, so closed instances evaluate.
-/

set_option autoImplicit false

namespace GraphDoc

universe u
variable {α : Type u}

/-- Places `a` before the first entry that it does not exceed. -/
def insertBy (le : α → α → Bool) (a : α) : List α → List α
  | [] => [a]
  | b :: l => if le a b then a :: b :: l else b :: insertBy le a l

/-- Entries that `le` does not separate keep their places. -/
def sortBy (le : α → α → Bool) : List α → List α
  | [] => []
  | a :: l => insertBy le a (sortBy le l)

theorem insertBy_perm (le : α → α → Bool) (a : α) (l : List α) :
    (insertBy le a l).Perm (a :: l) := by
  induction l with
  | nil => exact .refl _
  | cons b l ih =>
    rw [insertBy]
    split
    · exact .refl _
    · exact (ih.cons b).trans (.swap a b l)

theorem sortBy_perm (le : α → α → Bool) (l : List α) : (sortBy le l).Perm l := by
  induction l with
  | nil => exact .refl _
  | cons a l ih => exact (insertBy_perm le a _).trans (ih.cons a)

@[simp] theorem mem_sortBy_iff (le : α → α → Bool) (l : List α) {a : α} :
    a ∈ sortBy le l ↔ a ∈ l := (sortBy_perm le l).mem_iff

def distinct [DecidableEq α] : List α → List α
  | [] => []
  | a :: l => a :: (distinct l).filter (· ≠ a)

@[simp] theorem mem_distinct_iff [DecidableEq α] {a : α} {l : List α} :
    a ∈ distinct l ↔ a ∈ l := by
  induction l with
  | nil => simp [distinct]
  | cons b l ih =>
    by_cases h : a = b
    · simp [distinct, h]
    · simp [distinct, ih, h]

theorem distinct_nodup [DecidableEq α] (l : List α) : (distinct l).Nodup := by
  induction l with
  | nil => simp [distinct]
  | cons b l ih =>
    rw [distinct, List.nodup_cons]
    exact ⟨by simp, List.Pairwise.filter _ ih⟩

def distinctBy {β : Type u} [DecidableEq β] (key : α → β) : List α → List α
  | [] => []
  | a :: l => a :: (distinctBy key l).filter (key · ≠ key a)

/-- A map from names, listed in ascending order of the names. -/
abbrev NameMap (α : Type u) := List (String × α)

namespace NameMap

def put (name : String) (a : α) : NameMap α → NameMap α
  | [] => [(name, a)]
  | (other, b) :: m =>
    if name = other then (name, a) :: m
    else if name < other then (name, a) :: (other, b) :: m
    else (other, b) :: put name a m

def get? (name : String) : NameMap α → Option α
  | [] => none
  | (other, a) :: m => if name = other then some a else get? name m

/-- Reads the pairs from the left; the last binding of a name stands. -/
def ofPairs (pairs : List (String × α)) : NameMap α :=
  pairs.foldl (fun m pair => put pair.1 pair.2 m) []

def alter (name : String) (f : Option α → α) (m : NameMap α) : NameMap α :=
  put name (f (get? name m)) m

theorem get?_put (name other : String) (a : α) (m : NameMap α) :
    get? other (put name a m) = if other = name then some a else get? other m := by
  induction m with
  | nil => simp [put, get?]
  | cons pair m ih =>
    obtain ⟨key, b⟩ := pair
    rw [put]
    split
    · rename_i h
      subst h
      by_cases ho : other = name <;> simp [get?, ho]
    · split
      · simp [get?]
      · rename_i h _
        by_cases hk : other = key
        · subst hk
          simp [get?, Ne.symm h]
        · simp [get?, hk, ih]

end NameMap

end GraphDoc
