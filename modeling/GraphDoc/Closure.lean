import GraphDoc.Order

/-!
# Closures

All that can be reached from some entries, each entry once. The search goes level by level and stops
at the first level that brings nothing new.
-/

set_option autoImplicit false

namespace GraphDoc

universe u
variable {α : Type u} [DecidableEq α]

def unseen (next : α → List α) (level seen : List α) : List α :=
  (distinct (level.flatMap next)).filter (· ∉ seen)

def closeFrom (next : α → List α) : Nat → List α → List α → List α
  | 0, _, seen => seen
  | levels + 1, level, seen =>
    let fresh := unseen next level seen
    if fresh.isEmpty then seen else closeFrom next levels fresh (seen ++ fresh)

/-- The entries of `start` and all that follows from them in at most `levels` steps. -/
def closure (next : α → List α) (levels : Nat) (start : List α) : List α :=
  closeFrom next levels (distinct start) (distinct start)

theorem mem_unseen_iff {next : α → List α} {level seen : List α} {a : α} :
    a ∈ unseen next level seen ↔ (∃ b ∈ level, a ∈ next b) ∧ a ∉ seen := by
  simp [unseen]

theorem mem_closeFrom_of_seen (next : α → List α) (levels : Nat) (level seen : List α) {a : α}
    (h : a ∈ seen) : a ∈ closeFrom next levels level seen := by
  induction levels generalizing level seen with
  | zero => exact h
  | succ n ih =>
    rw [closeFrom]
    split
    · exact h
    · exact ih _ _ (List.mem_append_left _ h)

theorem mem_closure_of_start (next : α → List α) (levels : Nat) {start : List α} {a : α}
    (h : a ∈ start) : a ∈ closure next levels start :=
  mem_closeFrom_of_seen next levels _ _ (mem_distinct_iff.mpr h)

/-- What is found below a level has a chain of successors from the level or was seen before. -/
theorem closeFrom_induction {next : α → List α} {P : α → Prop}
    (hnext : ∀ a b, P a → b ∈ next a → P b) (levels : Nat) (level seen : List α)
    (hlevel : ∀ a ∈ level, P a) (hseen : ∀ a ∈ seen, P a) :
    ∀ a ∈ closeFrom next levels level seen, P a := by
  induction levels generalizing level seen with
  | zero => exact hseen
  | succ n ih =>
    rw [closeFrom]
    split
    · exact hseen
    · have hfresh : ∀ a ∈ unseen next level seen, P a := by
        intro a ha
        obtain ⟨⟨b, hb, hab⟩, _⟩ := mem_unseen_iff.mp ha
        exact hnext b a (hlevel b hb) hab
      refine ih _ _ hfresh ?_
      intro a ha
      rcases List.mem_append.mp ha with ha | ha
      · exact hseen a ha
      · exact hfresh a ha

/-- A property of the start that successors inherit holds in the closure. -/
theorem closure_induction {next : α → List α} {P : α → Prop} {levels : Nat} {start : List α}
    (hstart : ∀ a ∈ start, P a) (hnext : ∀ a b, P a → b ∈ next a → P b) :
    ∀ a ∈ closure next levels start, P a := by
  have h : ∀ a ∈ distinct start, P a := fun a ha => hstart a (mem_distinct_iff.mp ha)
  exact closeFrom_induction hnext levels _ _ h h

end GraphDoc
