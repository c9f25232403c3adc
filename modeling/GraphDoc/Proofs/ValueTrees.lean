import GraphDoc.Proofs.Faithful

/-!
# Values survive the store

`Store.value` reads down to as many levels as there are rows. No value is deeper, unless it contains
itself, so a value that can be read to some depth is read. A new value reads as it was written, and
what could be read before reads as before.
-/

set_option autoImplicit false

namespace GraphDoc

namespace Value

theorem height_le_heightAll {c : Option String × Value} {cs : List (Option String × Value)}
    (h : c ∈ cs) : c.2.height ≤ heightAll cs := by
  induction cs with
  | nil => cases h
  | cons d cs ih =>
    rw [heightAll]
    rcases List.mem_cons.mp h with rfl | h
    · exact Nat.le_max_left ..
    · exact Nat.le_trans (ih h) (Nat.le_max_right ..)

theorem exists_heightAll_eq (cs : List (Option String × Value)) :
    heightAll cs = 0 ∨ ∃ c ∈ cs, c.2.height = heightAll cs := by
  induction cs with
  | nil => exact .inl rfl
  | cons d cs ih =>
    rw [heightAll]
    by_cases hle : heightAll cs ≤ d.2.height
    · exact .inr ⟨d, List.mem_cons_self, (Nat.max_eq_left hle).symm⟩
    · rw [Nat.max_eq_right (Nat.le_of_not_le hle)]
      rcases ih with hzero | ⟨c, hc, heq⟩
      · omega
      · exact .inr ⟨c, List.mem_cons_of_mem d hc, heq⟩

end Value

namespace Store

open Value

variable {s : Store}

/-! ## Depth -/

theorem isOk_iff {x : Except Failure Value} : x.isOk = true ↔ ∃ v, x = .ok v := by
  cases x with
  | error e => simp [Except.isOk, Except.toBool]
  | ok v => simp [Except.isOk, Except.toBool]

theorem exists_node_of_valueWithin {n : Nat} {id : Int} {w : Value}
    (h : s.valueWithin (n + 1) id = .ok w) :
    ∃ row children, s.values.get? id = some row ∧ w = .node row.kind row.raw children ∧
      ((s.linksOf id).mapM fun link => do
        return (link.2.name?, ← s.valueWithin n link.2.value)) = .ok children := by
  rw [valueWithin] at h
  split at h
  · cases h
  · next row hrow =>
    obtain ⟨children, hc, h⟩ := bind_eq_ok.mp h
    cases h
    exact ⟨row, children, hrow, rfl, hc⟩

theorem exists_link_of_mem {n : Nat} {id : Int} {children : List (Option String × Value)}
    (h : ((s.linksOf id).mapM fun link => do
      return (link.2.name?, ← s.valueWithin n link.2.value)) = .ok children)
    {c : Option String × Value} (hc : c ∈ children) :
    ∃ child, s.valueWithin n child = .ok c.2 := by
  obtain ⟨link, _, hlink⟩ := exists_of_mem_mapM h hc
  obtain ⟨u, hu, hlink⟩ := bind_eq_ok.mp hlink
  cases hlink
  exact ⟨link.2.value, hu⟩

theorem valueWithin_of_height_le {n m : Nat} {id : Int} {w : Value}
    (h : s.valueWithin n id = .ok w) (hm : w.height ≤ m) : s.valueWithin m id = .ok w := by
  induction n generalizing m id w with
  | zero => cases h
  | succ n ih =>
    obtain ⟨row, children, hrow, rfl, hc⟩ := exists_node_of_valueWithin h
    rw [Value.height] at hm
    obtain ⟨m, rfl⟩ : ∃ k, m = k + 1 := ⟨m - 1, by omega⟩
    have below : ((s.linksOf id).mapM fun link => do
        return (link.2.name?, ← s.valueWithin m link.2.value)) = .ok children := by
      refine mapM_mono (fun link hl c hlink => ?_) hc
      obtain ⟨c', hc', hlink'⟩ := exists_mem_of_mapM hc hl
      obtain rfl := Except.ok.inj (hlink.symm.trans hlink')
      have hle := height_le_heightAll hc'
      obtain ⟨u, hu, hlink⟩ := bind_eq_ok.mp hlink
      cases hlink
      rw [ih hu (Nat.le_trans hle (Nat.le_of_succ_le_succ hm))]
      rfl
    rw [valueWithin, hrow]
    simp only [below]
    rfl

theorem valueWithin_unique {n m : Nat} {id : Int} {v w : Value} (hv : s.valueWithin n id = .ok v)
    (hw : s.valueWithin m id = .ok w) : v = w := by
  have left := valueWithin_mono (Nat.le_max_left n m) hv
  have right := valueWithin_mono (Nat.le_max_right n m) hw
  exact Except.ok.inj (left.symm.trans right)

theorem height_le_of_valueWithin {n : Nat} {id : Int} {w : Value}
    (h : s.valueWithin n id = .ok w) : w.height ≤ n := by
  induction n generalizing id w with
  | zero => cases h
  | succ n ih =>
    obtain ⟨row, children, _, rfl, hc⟩ := exists_node_of_valueWithin h
    rw [Value.height]
    rcases exists_heightAll_eq children with hzero | ⟨c, hmem, heq⟩
    · omega
    · obtain ⟨child, hchild⟩ := exists_link_of_mem hc hmem
      have := ih hchild
      omega

theorem height_le_countP {n : Nat} {id : Int} {w : Value} (h : s.valueWithin n id = .ok w) :
    w.height ≤ s.values.entries.countP fun e => (s.valueWithin w.height e.1).isOk := by
  induction n generalizing id w with
  | zero => cases h
  | succ n ih =>
    obtain ⟨row, children, hrow, hw, hc⟩ := exists_node_of_valueWithin h
    have height : w.height = heightAll children + 1 := by rw [hw, Value.height]
    have below : heightAll children ≤
        s.values.entries.countP fun e => (s.valueWithin (heightAll children) e.1).isOk := by
      rcases exists_heightAll_eq children with hzero | ⟨c, hmem, heq⟩
      · omega
      · obtain ⟨child, hchild⟩ := exists_link_of_mem hc hmem
        exact heq ▸ ih hchild
    -- The row itself has more levels than its children, so it was not counted.
    have more : (s.values.entries.countP fun e => (s.valueWithin (heightAll children) e.1).isOk) <
        s.values.entries.countP fun e => (s.valueWithin w.height e.1).isOk := by
      refine countP_lt_countP (fun e _ he => ?_) (Table.mem_of_get? hrow) ?_ ?_
      · obtain ⟨v, hv⟩ := isOk_iff.mp he
        exact isOk_iff.mpr ⟨v, valueWithin_mono (by omega) hv⟩
      · rw [Bool.eq_false_iff]
        intro he
        obtain ⟨v, hv⟩ := isOk_iff.mp he
        have := height_le_of_valueWithin hv
        rw [valueWithin_unique hv h] at this
        omega
      · exact isOk_iff.mpr ⟨w, valueWithin_of_height_le h (Nat.le_refl _)⟩
    omega

theorem value_of_valueWithin {n : Nat} {id : Int} {w : Value} (h : s.valueWithin n id = .ok w) :
    s.value id = .ok w := by
  apply valueWithin_of_height_le h
  calc w.height ≤ s.values.entries.countP fun e => (s.valueWithin w.height e.1).isOk :=
        height_le_countP h
    _ ≤ s.values.size := List.countP_le_length
    _ ≤ s.values.size + 1 := Nat.le_succ _

/-! ## New values -/

/-- A new value is read as it was written, and what could be read before is read as before, no more
and no less. -/
theorem addValue_survives (hs : s.closed = true) {owner? : Option Int}
    (ho : ∀ d, owner? = some d → s.documents.contains d = true) (p : Position)
    (expected? : Option TypeRef) (v : Value) :
    (s.addValue owner? p expected? v).1.value (s.addValue owner? p expected? v).2 = .ok v ∧
    ∀ id, s.values.contains id = true → ∀ w,
      (s.addValue owner? p expected? v).1.value id = .ok w ↔ s.value id = .ok w := by
  have closed := s.closed_iff.mp hs
  have extended : Extends s (s.addValue owner? p expected? v).1 :=
    ((Appends.refl _ _ s).addValue (fun _ => Nat.le_refl _) ho p expected? v).1
  constructor
  · rw [addValue_snd]
    exact addValue_value closed ho p expected? v (.refl ..)
  · intro id hid w
    constructor
    · intro hw
      rw [value, extended.valueWithin closed _ hid] at hw
      exact value_of_valueWithin hw
    · exact extended.value closed hid

/-- An object with a list in it. -/
def listed : Value :=
  .node .object "" [(some "ids", .node .list "" [(none, .leaf .int "1"), (none, .leaf .var "two")]),
    (some "note", .leaf .null "null")]

theorem listed_survives :
    let s := (userStore.addValue (some 1) ⟨1, 3⟩ none (.leaf .enum "OLD")).1
    s.closed = true ∧ s.documents.contains 1 = true ∧
    (s.addValue (some 1) ⟨2, 3⟩ none listed).1.value 2 = .ok listed ∧
    (s.addValue (some 1) ⟨2, 3⟩ none listed).1.value 1 = .ok (.leaf .enum "OLD") := by
  intro s
  have closed : s.closed = true := by decide
  have owner : ∀ d, some 1 = some d → s.documents.contains d = true := by
    rintro _ ⟨⟩
    rfl
  obtain ⟨new, old⟩ := addValue_survives closed owner ⟨2, 3⟩ none listed
  exact ⟨closed, rfl, new, (old 1 rfl _).mpr rfl⟩

end Store

end GraphDoc
