import GraphDoc.Proofs.ListOperation.Planting
import Mathlib.Logic.Relation

/-!
# Copying what is below a selection

`Store.copiesBelow` goes through the selections below one in tree order. Where each selection is
placed once, what it places below a selection is what was placed there, in the same order.
-/

set_option autoImplicit false

namespace GraphDoc

/-- A list that is sorted stays as it is. -/
theorem sortBy_eq_self {α : Type} {le : α → α → Bool} {l : List α}
    (h : l.Pairwise fun a b => le a b = true) : sortBy le l = l := by
  induction l with
  | nil => rfl
  | cons a l ih =>
    obtain ⟨ha, hl⟩ := List.pairwise_cons.mp h
    rw [sortBy, ih hl, insertBy_of_le ha]

theorem flatMap_eq_of_mem {α β : Type} {l : List α} {g : α → List β} {a : α} (hl : l.Nodup)
    (ha : a ∈ l) (others : ∀ b ∈ l, b ≠ a → g b = []) : l.flatMap g = g a := by
  induction l with
  | nil => cases ha
  | cons c l ih =>
    obtain ⟨hc, hl⟩ := List.nodup_cons.mp hl
    rw [List.flatMap_cons]
    by_cases hca : c = a
    · subst hca
      have rest : l.flatMap g = [] := List.flatMap_eq_nil_iff.mpr fun b hb =>
        others b (List.mem_cons_of_mem c hb) fun he => hc (he ▸ hb)
      rw [rest, List.append_nil]
    · rw [others c List.mem_cons_self hca, List.nil_append]
      exact ih hl ((List.mem_cons.mp ha).resolve_left fun he => hca he.symm) fun b hb =>
        others b (List.mem_cons_of_mem c hb)

namespace Store

open Relation

/-- The second selection is placed directly below the first. -/
def Over (placed : List (Placement × SelectionRow)) (a b : Int) : Prop :=
  ∃ e ∈ placed, e.1.parent? = some a ∧ e.1.child = b

/-- Each selection is placed once, and after what is above it. -/
structure Forested (placed : List (Placement × SelectionRow)) : Prop where
  once : placed.Pairwise fun e e' => e.1.child ≠ e'.1.child
  rises : ∀ e ∈ placed, ∀ x, e.1.parent? = some x → x < e.1.child

section

variable {placed : List (Placement × SelectionRow)} {a b c : Int}

theorem Forested.eq_of_child (h : Forested placed) {e e' : Placement × SelectionRow}
    (he : e ∈ placed) (he' : e' ∈ placed) (same : e.1.child = e'.1.child) : e = e' :=
  List.inj_on_of_nodup_map (List.pairwise_map.mpr h.once) he he' same

theorem Forested.nodup_filter (h : Forested placed) (q : Placement × SelectionRow → Bool) :
    (placed.filter q).Nodup := by
  apply List.Nodup.filter
  exact List.Nodup.of_map (fun e => e.1.child) (List.pairwise_map.mpr h.once)

theorem Forested.lt_of_over (h : Forested placed) (hab : Over placed a b) : a < b := by
  obtain ⟨e, he, hparent, rfl⟩ := hab
  exact h.rises e he a hparent

theorem Forested.le_of_reflTransGen (h : Forested placed) (hab : ReflTransGen (Over placed) a b) :
    a ≤ b := by
  induction hab with
  | refl => exact Int.le_refl a
  | tail _ hbc ih => exact Int.le_trans ih (Int.le_of_lt (h.lt_of_over hbc))

theorem Forested.parent_unique (h : Forested placed) (hac : Over placed a c)
    (hbc : Over placed b c) : a = b := by
  obtain ⟨e, he, ha, hchild⟩ := hac
  obtain ⟨e', he', hb, hchild'⟩ := hbc
  obtain rfl := h.eq_of_child he he' (hchild.trans hchild'.symm)
  exact Option.some.inj (ha.symm.trans hb)

theorem Forested.branch_unique (h : Forested placed) {x y z : Int} (ha : Over placed x y)
    (hb : Over placed x z) (hy : ReflTransGen (Over placed) y c)
    (hz : ReflTransGen (Over placed) z c) : y = z := by
  have up : Relator.RightUnique (Function.swap (Over placed)) := fun _ _ _ h₁ h₂ =>
    h.parent_unique h₁ h₂
  -- The parent of the lower one is `x`, which is above the upper one.
  have key : ∀ {y z : Int}, Over placed x y → Over placed x z →
      ReflTransGen (Over placed) y z → y = z := by
    intro y z hy hz hyz
    rcases ReflTransGen.cases_tail hyz with heq | ⟨w, hyw, hwz⟩
    · exact heq.symm
    · have hlt := h.lt_of_over hy
      have hle := h.le_of_reflTransGen hyw
      rw [h.parent_unique hwz hz] at hle
      omega
  rcases ReflTransGen.total_of_right_unique up (reflTransGen_swap.mpr hy)
    (reflTransGen_swap.mpr hz) with hyz | hzy
  · exact (key hb ha (reflTransGen_swap.mp hyz)).symm
  · exact key ha hb (reflTransGen_swap.mp hzy)

/-- The number of selections that come after one. -/
def room (placed : List (Placement × SelectionRow)) (x : Int) : Nat :=
  (placed.filter fun e => decide (x < e.1.child)).length

theorem Forested.room_lt (h : Forested placed) (hab : Over placed a b) :
    room placed b < room placed a := by
  have hlt := h.lt_of_over hab
  obtain ⟨e, he, _, rfl⟩ := hab
  have fewer : placed.filter (fun e' => decide (e.1.child < e'.1.child)) =
      (placed.filter fun e' => decide (a < e'.1.child)).filter
        fun e' => decide (e.1.child < e'.1.child) := by
    rw [List.filter_filter]
    apply List.filter_congr
    intro e' _
    by_cases hb : e.1.child < e'.1.child
    · simp [hb, Int.lt_trans hlt hb]
    · simp [hb]
  rw [room, room, fewer]
  apply List.length_filter_lt_length_iff_exists.mpr
  exact ⟨e, List.mem_filter.mpr ⟨he, decide_eq_true hlt⟩, by simp⟩

/-- What is below a selection, in tree order. -/
def preorder (placed : List (Placement × SelectionRow)) :
    Nat → Int → List (Placement × SelectionRow)
  | 0, _ => []
  | depth + 1, x =>
    (placed.filter (·.1.parent? = some x)).flatMap fun e => e :: preorder placed depth e.1.child

theorem exists_parent_of_mem_preorder {depth : Nat} {x : Int} {e : Placement × SelectionRow}
    (h : e ∈ preorder placed depth x) :
    ∃ y, e.1.parent? = some y ∧ ReflTransGen (Over placed) x y := by
  induction depth generalizing x with
  | zero => cases h
  | succ depth ih =>
    obtain ⟨e', he', h⟩ := List.mem_flatMap.mp h
    obtain ⟨hm, hparent⟩ := List.mem_filter.mp he'
    rcases List.mem_cons.mp h with rfl | h
    · exact ⟨x, of_decide_eq_true hparent, .refl⟩
    · obtain ⟨y, hy, reach⟩ := ih h
      exact ⟨y, hy, .head ⟨e', hm, of_decide_eq_true hparent, rfl⟩ reach⟩

theorem filter_preorder_eq_nil {depth : Nat} {x y : Int}
    (h : ¬ ReflTransGen (Over placed) x y) :
    (preorder placed depth x).filter (·.1.parent? = some y) = [] := by
  apply List.filter_eq_nil_iff.mpr
  intro e he hparent
  obtain ⟨z, hz, reach⟩ := exists_parent_of_mem_preorder he
  rw [hz, decide_eq_true_eq, Option.some.injEq] at hparent
  exact h (hparent ▸ reach)

/-- Tree order meets what is below each selection once and in order, if it goes deep enough. -/
theorem Forested.filter_preorder (h : Forested placed) {depth : Nat} {x y : Int}
    (hxy : ReflTransGen (Over placed) x y) (deep : room placed x < depth) :
    (preorder placed depth x).filter (·.1.parent? = some y) =
      placed.filter (·.1.parent? = some y) := by
  induction depth generalizing x with
  | zero => exact absurd deep (Nat.not_lt_zero _)
  | succ depth ih =>
    rw [preorder, List.filter_flatMap]
    rcases ReflTransGen.cases_head hxy with rfl | ⟨z, hxz, hzy⟩
    · -- Nothing deeper is directly below `x` again.
      have only : ∀ e ∈ placed.filter (·.1.parent? = some x),
          (e :: preorder placed depth e.1.child).filter (·.1.parent? = some x) = [e] := by
        intro e he
        obtain ⟨hm, hparent⟩ := List.mem_filter.mp he
        rw [List.filter_cons_of_pos (by exact hparent), filter_preorder_eq_nil]
        intro reach
        have hle := h.le_of_reflTransGen reach
        have hlt := h.rises e hm x (of_decide_eq_true hparent)
        omega
      rw [List.flatMap_congr only, List.flatMap_singleton']
    · have hlt := h.lt_of_over hxz
      have hle := h.le_of_reflTransGen hzy
      have deeper : ∀ e ∈ placed.filter (·.1.parent? = some x),
          (e :: preorder placed depth e.1.child).filter (·.1.parent? = some y) =
            (preorder placed depth e.1.child).filter (·.1.parent? = some y) := by
        intro e he
        obtain ⟨_, hparent⟩ := List.mem_filter.mp he
        apply List.filter_cons_of_neg
        rw [of_decide_eq_true hparent, decide_eq_true_eq, Option.some.injEq]
        omega
      obtain ⟨e, he, hparent, rfl⟩ := hxz
      have hm : e ∈ placed.filter (·.1.parent? = some x) :=
        List.mem_filter.mpr ⟨he, decide_eq_true hparent⟩
      rw [List.flatMap_congr deeper, flatMap_eq_of_mem (h.nodup_filter _) hm]
      · have := h.room_lt ⟨e, he, hparent, rfl⟩
        exact ih hzy (by omega)
      · intro e' he' hne
        obtain ⟨hm', hparent'⟩ := List.mem_filter.mp he'
        apply filter_preorder_eq_nil
        intro reach
        refine hne (h.eq_of_child hm' he ?_)
        exact h.branch_unique ⟨e', hm', of_decide_eq_true hparent', rfl⟩ ⟨e, he, hparent, rfl⟩
          reach hzy

/-! ## Copies -/

variable {target : Int}

theorem copiesBelow_some (depth : Nat) (x : Int) :
    copiesBelow placed target depth x (some x) =
      (preorder placed depth x).map fun e => { e.1 with document := target } := by
  induction depth generalizing x with
  | zero => rfl
  | succ depth ih =>
    rw [copiesBelow, preorder, List.map_flatMap]
    apply List.flatMap_congr
    intro e he
    have hparent := of_decide_eq_true (List.mem_filter.mp he).2
    rw [List.map_cons, ← ih, ← hparent]

/-- The copies at the root are of what is directly below the selection. -/
theorem filter_copiesBelow_none (depth : Nat) (x : Int) :
    (copiesBelow placed target (depth + 1) x none).filter (·.parent? = none) =
      (placed.filter (·.1.parent? = some x)).map fun e =>
        { e.1 with parent? := none, document := target } := by
  rw [copiesBelow, List.filter_flatMap, ← List.flatMap_pure_eq_map]
  apply List.flatMap_congr
  intro e _
  rw [List.filter_cons_of_pos (by rfl), copiesBelow_some, List.filter_eq_nil_iff.mpr]
  · rfl
  · intro q hq hnone
    obtain ⟨e', he', rfl⟩ := List.mem_map.mp hq
    obtain ⟨y, hy, _⟩ := exists_parent_of_mem_preorder he'
    rw [decide_eq_true_eq] at hnone
    cases hy.symm.trans hnone

/-- The copies below another selection are of what is below it. -/
theorem Forested.filter_copiesBelow (h : Forested placed) {depth : Nat} {x y : Int}
    (hxy : TransGen (Over placed) x y) (deep : room placed x ≤ depth) :
    (copiesBelow placed target (depth + 1) x none).filter (·.parent? = some y) =
      (placed.filter (·.1.parent? = some y)).map fun e => { e.1 with document := target } := by
  obtain ⟨z, hxz, hzy⟩ := TransGen.head'_iff.mp hxy
  have hlt := h.lt_of_over hxz
  have hle := h.le_of_reflTransGen hzy
  rw [← h.filter_preorder (.head hxz hzy) (Nat.lt_succ_of_le deep), copiesBelow, preorder,
    List.filter_flatMap, List.filter_flatMap, List.map_flatMap]
  apply List.flatMap_congr
  intro e he
  have hparent := of_decide_eq_true (List.mem_filter.mp he).2
  rw [List.filter_cons_of_neg (by simp), List.filter_cons_of_neg, copiesBelow_some, List.filter_map]
  · rfl
  · rw [hparent, decide_eq_true_eq, Option.some.injEq]
    omega

end

end Store

end GraphDoc
