import GraphDoc.Proofs.ListOperation.Copying

/-!
# Documents that show what others select

`Store.Mirrors` says of the placements alone that a document shows, before some selections of its
own, selections of another document with all that is below them. Whatever stands on the selections,
the trees then agree.
-/

set_option autoImplicit false

namespace GraphDoc

open Relation

namespace SelectionNode

/-- A node stands somewhere in a tree. -/
inductive StandsIn (n : SelectionNode) : List SelectionNode → Prop where
  | here {ns : List SelectionNode} (h : n ∈ ns) : n.StandsIn ns
  | under {m : SelectionNode} {ns : List SelectionNode} (hm : m ∈ ns)
      (h : n.StandsIn m.children) : n.StandsIn ns

theorem StandsIn.child {n m : SelectionNode} {ns : List SelectionNode} (h : n.StandsIn ns)
    (hm : m ∈ n.children) : m.StandsIn ns := by
  induction h with
  | here h => exact .under h (.here hm)
  | under hm' _ ih => exact .under hm' ih

end SelectionNode

namespace Store

variable {s s' : Store} {G : Int → Prop} {d i : Int}

/-! ## Levels -/

/-- The selections at a place of a document, by index. -/
def below (s : Store) (document : Int) (parent? : Option Int) : List Int :=
  (s.placesAt document parent?).map (·.child)

theorem mem_below {parent? : Option Int} {x : Int} :
    x ∈ s.below d parent? ↔
      ∃ q ∈ s.placements.rows, q.document = d ∧ q.parent? = parent? ∧ q.child = x := by
  simp only [below, placesAt, List.mem_map, mem_sortBy_iff, List.mem_filter, decide_eq_true_eq]
  constructor
  · rintro ⟨q, ⟨⟨hq, hd⟩, hparent⟩, rfl⟩
    exact ⟨q, hq, hd, hparent, rfl⟩
  · rintro ⟨q, hq, hd, hparent, rfl⟩
    exact ⟨q, ⟨⟨hq, hd⟩, hparent⟩, rfl⟩

theorem below_of_filter (h : s'.placements.rows.filter (·.document = d) =
    s.placements.rows.filter (·.document = d)) (parent? : Option Int) :
    s'.below d parent? = s.below d parent? := by
  rw [below, below, placesAt, placesAt, h]

/-- A selection with what is below it in a document, down to a depth. -/
def nodeFor (s : Store) (document : Int) (depth : Nat) (x : Int) :
    Except Failure SelectionNode :=
  (s.level (s.placed document) depth (some x)).map fun children =>
    .node x ((s.selections.get? x).getD default) (s.arguments x) (s.nodes .selection x) children

theorem nodeFor_eq_ok {depth : Nat} {x : Int} {n : SelectionNode}
    (h : s.nodeFor d depth x = .ok n) :
    s.level (s.placed d) depth (some x) = .ok n.children ∧
    n = .node x ((s.selections.get? x).getD default) (s.arguments x) (s.nodes .selection x)
      n.children := by
  rw [nodeFor] at h
  cases hlevel : s.level (s.placed d) depth (some x) with
  | error e =>
    rw [hlevel] at h
    cases h
  | ok children =>
    rw [hlevel] at h
    cases h
    exact ⟨rfl, rfl⟩

theorem Sound.level_below (h : s.Sound G) (document : Int) (depth : Nat) (parent? : Option Int) :
    s.level (s.placed document) (depth + 1) parent? =
      (s.below document parent?).mapM (s.nodeFor document depth) := by
  rw [h.closed.level_succ, below, List.mapM_map]
  apply mapM_congr
  intro q _
  rw [nodeAt, h.argumentValues_eq, h.directiveNodes_eq, Function.comp_apply, nodeFor]
  cases s.level (s.placed document) depth (some q.child) <;> rfl

theorem Sound.level_mono (h : s.Sound G) {placed : List (Placement × SelectionRow)}
    {depth depth' : Nat} (hle : depth ≤ depth') {parent? : Option Int} {ns : List SelectionNode}
    (hlevel : s.level placed depth parent? = .ok ns) : s.level placed depth' parent? = .ok ns := by
  induction depth generalizing depth' parent? ns with
  | zero => cases hlevel
  | succ depth ih =>
    obtain ⟨depth', rfl⟩ : ∃ k, depth' = k + 1 := ⟨depth' - 1, by omega⟩
    rw [h.level_succ] at hlevel ⊢
    refine mapM_mono (fun e _ n hn => ?_) hlevel
    cases below : s.level placed depth (some e.1.child) with
    | error _ =>
      rw [below] at hn
      cases hn
    | ok children =>
      rw [ih (by omega) below]
      rwa [below] at hn

theorem Sound.level_unique (h : s.Sound G) {placed : List (Placement × SelectionRow)}
    {depth depth' : Nat} {parent? : Option Int} {ns ns' : List SelectionNode}
    (hn : s.level placed depth parent? = .ok ns)
    (hn' : s.level placed depth' parent? = .ok ns') : ns = ns' := by
  have left := h.level_mono (Nat.le_max_left depth depth') hn
  have right := h.level_mono (Nat.le_max_right depth depth') hn'
  exact Except.ok.inj (left.symm.trans right)

/-! ## Nodes -/

theorem Sound.nodeFor_of_standsIn (h : s.Sound G) {depth : Nat} {parent? : Option Int}
    {tree : List SelectionNode} (htree : s.level (s.placed d) depth parent? = .ok tree)
    {n : SelectionNode} (hn : n.StandsIn tree) : ∃ depth, s.nodeFor d depth n.id = .ok n := by
  have read : ∀ {depth : Nat} {parent? : Option Int} {ns : List SelectionNode} {m : SelectionNode},
      s.level (s.placed d) depth parent? = .ok ns → m ∈ ns →
      ∃ depth, s.nodeFor d depth m.id = .ok m := by
    intro depth parent? ns m hlevel hm
    cases depth with
    | zero => cases hlevel
    | succ depth =>
      rw [h.level_below] at hlevel
      obtain ⟨x, _, hx⟩ := exists_of_mem_mapM hlevel hm
      have hid : m.id = x := by rw [(nodeFor_eq_ok hx).2, SelectionNode.id]
      exact ⟨depth, hid ▸ hx⟩
  induction hn generalizing depth parent? with
  | here hm => exact read htree hm
  | under hm _ ih =>
    obtain ⟨depth', hdepth⟩ := read htree hm
    exact ih (nodeFor_eq_ok hdepth).1

/-- The node of a selection in a document. -/
def Shows (s : Store) (document x : Int) (n : SelectionNode) : Prop :=
  ∃ tree, s.selectionTree document = .ok tree ∧ n.StandsIn tree ∧ n.id = x

/-- The children of a node are what is below its selection. -/
theorem Sound.children_of_shows (h : s.Sound G) {x : Int} {n : SelectionNode}
    (hn : s.Shows d x n) :
    (s.below d (some x)).mapM (s.nodeFor d Failure.depthLimit) = .ok n.children := by
  obtain ⟨tree, htree, stands, rfl⟩ := hn
  obtain ⟨depth, read⟩ := h.nodeFor_of_standsIn htree stands
  obtain ⟨ns, hns⟩ := h.level_ok d (.here n.id) (show Failure.depthLimit ≤
    0 + (Failure.depthLimit + 1) from by omega)
  rw [← h.level_below, hns, h.level_unique hns (nodeFor_eq_ok read).1]

/-- A selection is placed in a document directly below another one. -/
def Above (s : Store) (document a b : Int) : Prop := b ∈ s.below document (some a)

theorem above_congr (h : ∀ parent?, s'.below d parent? = s.below d parent?) :
    s'.Above d = s.Above d := by
  funext a b
  rw [Above, Above, h]

/-- A selection is below one at the root, or is one. -/
def Reaches (s : Store) (document x : Int) : Prop :=
  ∃ root ∈ s.below document none, ReflTransGen (s.Above document) root x

theorem Sound.exists_shows (h : s.Sound G) {x : Int} (hx : s.Reaches d x) :
    ∃ n, s.Shows d x n := by
  obtain ⟨tree, htree⟩ := h.selectionTree_ok d
  obtain ⟨root, hroot, reach⟩ := hx
  have read : ∀ {depth : Nat} {parent? : Option Int} {ns : List SelectionNode} {x : Int},
      s.level (s.placed d) depth parent? = .ok ns → x ∈ s.below d parent? →
      ∃ n ∈ ns, n.id = x := by
    intro depth parent? ns x hlevel hx
    cases depth with
    | zero => cases hlevel
    | succ depth =>
      rw [h.level_below] at hlevel
      obtain ⟨n, hn, hread⟩ := exists_mem_of_mapM hlevel hx
      exact ⟨n, hn, by rw [(nodeFor_eq_ok hread).2, SelectionNode.id]⟩
  induction reach with
  | refl =>
    obtain ⟨n, hn, hid⟩ := read htree hroot
    exact ⟨n, tree, htree, .here hn, hid⟩
  | tail _ hab ih =>
    obtain ⟨n, tree', htree', stands, rfl⟩ := ih
    obtain ⟨depth, hdepth⟩ := h.nodeFor_of_standsIn htree' stands
    obtain ⟨m, hm, hid⟩ := read (nodeFor_eq_ok hdepth).1 hab
    exact ⟨m, tree', htree', stands.child hm, hid⟩

/-- In a planted document every selection is reached. -/
theorem Planted.reaches (h : s.Planted) (hs : s.Closed) {q : Placement}
    (hq : q ∈ s.placements.rows) : s.Reaches q.document q.child := by
  have positive : ∀ q ∈ s.placements.rows, 0 < q.child := by
    intro q hq
    obtain ⟨row, hrow⟩ := Table.contains_iff.mp (hs.placements q hq).2.1
    exact (s.selections.bounded _ (Table.mem_of_get? hrow)).1
  -- What is above a selection has a smaller number.
  have bounded : ∀ n : Nat, ∀ q ∈ s.placements.rows, q.child ≤ n →
      s.Reaches q.document q.child := by
    intro n
    induction n with
    | zero =>
      intro q hq hle
      have := positive q hq
      omega
    | succ n ih =>
      intro q hq hle
      cases hparent : q.parent? with
      | none => exact ⟨q.child, mem_below.mpr ⟨q, hq, rfl, hparent, rfl⟩, .refl⟩
      | some x =>
        obtain ⟨hlt, q', hq', rfl, hdocument⟩ := h.rooted q hq x hparent
        obtain ⟨root, hroot, reach⟩ := ih q' hq' (by omega)
        rw [hdocument] at hroot reach
        exact ⟨root, hroot, reach.tail (mem_below.mpr ⟨q, hq, rfl, hparent, rfl⟩)⟩
  have := positive q hq
  exact bounded q.child.toNat q hq (by omega)

/-! ## Mirrors -/

/-- A document shows `copied` as another one does, and after them `new`, which are bare. -/
structure Mirrors (s : Store) (document : Int) (copied : List Int) (mirror : Int)
    (new : List Int) : Prop where
  roots : s.below mirror none = copied ++ new
  under : ∀ c ∈ copied, ∀ y, ReflTransGen (s.Above document) c y →
    s.below mirror (some y) = s.below document (some y)
  bare : ∀ y ∈ new, s.below mirror (some y) = []

variable {copied new : List Int}

/-- Mirrors depend on the placements in the two documents only. -/
theorem Mirrors.congr (h : s.Mirrors d copied i new)
    (hd : ∀ parent?, s'.below d parent? = s.below d parent?)
    (hi : ∀ parent?, s'.below i parent? = s.below i parent?) : s'.Mirrors d copied i new := by
  refine ⟨(hi none).trans h.roots, fun c hc y hy => ?_, fun y hy => (hi _).trans (h.bare y hy)⟩
  rw [hi, hd]
  exact h.under c hc y (above_congr hd ▸ hy)

theorem Mirrors.level (h : s.Mirrors d copied i new) (hs : s.Sound G) {c y : Int}
    (hc : c ∈ copied) (hy : ReflTransGen (s.Above d) c y) (depth : Nat) :
    s.level (s.placed i) depth (some y) = s.level (s.placed d) depth (some y) := by
  induction depth generalizing y with
  | zero => rfl
  | succ depth ih =>
    rw [hs.level_below, hs.level_below, h.under c hc y hy]
    apply mapM_congr
    intro z hz
    rw [nodeFor, nodeFor, ih (hy.tail hz)]

/-- A selection that nothing is below. -/
def bareNode (s : Store) (x : Int) : SelectionNode :=
  .node x ((s.selections.get? x).getD default) (s.arguments x) (s.nodes .selection x) []

/-- The tree of a mirror. -/
theorem Mirrors.selectionTree (h : s.Mirrors d copied i new) (hs : s.Sound G)
    {ns : List SelectionNode} (hns : copied.mapM (s.nodeFor d Failure.depthLimit) = .ok ns) :
    s.selectionTree i = .ok (ns ++ new.map s.bareNode) := by
  have shared : copied.mapM (s.nodeFor i Failure.depthLimit) = .ok ns := by
    rw [← hns]
    apply mapM_congr
    intro c hc
    rw [nodeFor, nodeFor, h.level hs hc .refl]
  have own : new.mapM (s.nodeFor i Failure.depthLimit) = .ok (new.map s.bareNode) := by
    apply mapM_eq_ok
    intro y hy
    have nothing : s.level (s.placed i) Failure.depthLimit (some y) = .ok [] := by
      rw [show Failure.depthLimit = (Failure.depthLimit - 1) + 1 from rfl, hs.level_below,
        h.bare y hy]
      rfl
    rw [nodeFor, nothing]
    rfl
  rw [Store.selectionTree, hs.level_below, h.roots, List.mapM_append, shared, own]
  rfl

end Store

end GraphDoc
