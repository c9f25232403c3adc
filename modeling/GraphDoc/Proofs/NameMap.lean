import GraphDoc.Order

/-!
# Maps from names

The bindings of a map come from the pairs that it was made of, and their names ascend. A list of
pairs whose names ascend is a map as it stands, and no other such list binds the same.
-/

set_option autoImplicit false

namespace GraphDoc.NameMap

variable {α : Type}

theorem mem_put {name : String} {a : α} {m : NameMap α} {e : String × α}
    (h : e ∈ put name a m) : e = (name, a) ∨ e ∈ m := by
  induction m with
  | nil => exact .inl (List.mem_singleton.mp h)
  | cons pair m ih =>
    rw [put] at h
    split at h
    · exact (List.mem_cons.mp h).imp_right (List.mem_cons_of_mem _)
    · split at h
      · exact List.mem_cons.mp h
      · rcases List.mem_cons.mp h with h | h
        · exact .inr (h ▸ List.mem_cons_self)
        · exact (ih h).imp_right (List.mem_cons_of_mem _)

theorem mem_ofPairs {pairs : List (String × α)} {e : String × α} (h : e ∈ ofPairs pairs) :
    e ∈ pairs := by
  have key : ∀ (pairs : List (String × α)) (m : NameMap α),
      e ∈ pairs.foldl (fun m pair => put pair.1 pair.2 m) m → e ∈ m ∨ e ∈ pairs := by
    intro pairs
    induction pairs with
    | nil => exact fun m h => .inl h
    | cons pair pairs ih =>
      intro m h
      rcases ih _ h with h | h
      · rcases mem_put h with rfl | h
        · exact .inr List.mem_cons_self
        · exact .inl h
      · exact .inr (List.mem_cons_of_mem _ h)
  exact (key pairs [] h).resolve_left (by simp)

/-- The names are in ascending order, each of them once. -/
def Ascending (m : NameMap α) : Prop := m.Pairwise fun a b => a.1 < b.1

instance (m : NameMap α) : Decidable (Ascending m) :=
  inferInstanceAs (Decidable (m.Pairwise fun a b => a.1 < b.1))

theorem Ascending.put {m : NameMap α} (h : Ascending m) (name : String) (a : α) :
    Ascending (put name a m) := by
  induction m with
  | nil => exact List.pairwise_singleton ..
  | cons pair m ih =>
    obtain ⟨key, b⟩ := pair
    obtain ⟨hlt, hm⟩ := List.pairwise_cons.mp h
    rw [NameMap.put]
    split
    · next he => exact List.pairwise_cons.mpr ⟨he ▸ hlt, hm⟩
    · split
      · next hk =>
        refine List.pairwise_cons.mpr ⟨fun e he => ?_, h⟩
        rcases List.mem_cons.mp he with rfl | he
        · exact hk
        · exact String.lt_trans hk (hlt e he)
      · next hne hk =>
        refine List.pairwise_cons.mpr ⟨fun e he => ?_, ih hm⟩
        rcases mem_put he with rfl | he
        · exact Std.lt_of_le_of_ne (String.not_lt.mp hk) (Ne.symm hne)
        · exact hlt e he

theorem ascending_ofPairs (pairs : List (String × α)) : Ascending (ofPairs pairs) :=
  List.foldlRecOn (motive := fun m => Ascending m) pairs _ .nil fun _ h pair _ =>
    h.put pair.1 pair.2

theorem put_of_lt {m : NameMap α} {name : String} (h : ∀ e ∈ m, e.1 < name) (a : α) :
    put name a m = m ++ [(name, a)] := by
  induction m with
  | nil => rfl
  | cons pair m ih =>
    have hlt := h pair List.mem_cons_self
    rw [put, if_neg, if_neg, ih fun e he => h e (List.mem_cons_of_mem _ he)]
    · rfl
    · exact String.lt_asymm hlt
    · rintro rfl
      exact String.lt_irrefl _ hlt

theorem Ascending.ofPairs_eq {m : NameMap α} (h : Ascending m) : ofPairs m = m := by
  have key : ∀ (rest pre : NameMap α), Ascending (pre ++ rest) →
      rest.foldl (fun m pair => NameMap.put pair.1 pair.2 m) pre = pre ++ rest := by
    intro rest
    induction rest with
    | nil => exact fun pre _ => (List.append_nil pre).symm
    | cons pair rest ih =>
      intro pre hp
      have hlt := (List.pairwise_append.mp hp).2.2
      rw [List.foldl_cons, put_of_lt fun e he => hlt e he pair List.mem_cons_self, ih]
      · rw [List.append_assoc]
        rfl
      · rwa [List.append_assoc]
  exact key m [] h

theorem get?_eq_none_of_lt {m : NameMap α} {name : String} (h : ∀ e ∈ m, name < e.1) :
    get? name m = none := by
  induction m with
  | nil => rfl
  | cons e m ih =>
    have hne : name ≠ e.1 := String.ne_of_lt (h e List.mem_cons_self)
    rw [get?, if_neg hne]
    exact ih fun e he => h e (List.mem_cons_of_mem _ he)

/-- Maps that bind the same names to the same values are equal. -/
theorem Ascending.ext {m m' : NameMap α} (h : Ascending m) (h' : Ascending m')
    (same : ∀ name, get? name m = get? name m') : m = m' := by
  -- A first name that is below all names of another map is not bound there.
  have not_lt : ∀ {e e' : String × α} {m m' : NameMap α}, Ascending (e' :: m') →
      (∀ name, get? name (e :: m) = get? name (e' :: m')) → ¬ e.1 < e'.1 := by
    intro e e' m m' h' same hlt
    have key := same e.1
    rw [get?_eq_none_of_lt (m := e' :: m'), get?, if_pos rfl] at key
    · cases key
    · intro f hf
      rcases List.mem_cons.mp hf with rfl | hf
      · exact hlt
      · exact String.lt_trans hlt ((List.pairwise_cons.mp h').1 f hf)
  induction m generalizing m' with
  | nil =>
    cases m' with
    | nil => rfl
    | cons e' m' => simpa [get?] using same e'.1
  | cons e m ih =>
    cases m' with
    | nil => simpa [get?] using same e.1
    | cons e' m' =>
      have first : e.1 = e'.1 := String.le_antisymm
        (String.not_lt.mp (not_lt h fun name => (same name).symm))
        (String.not_lt.mp (not_lt h' same))
      obtain ⟨hlt, hm⟩ := List.pairwise_cons.mp h
      obtain ⟨hlt', hm'⟩ := List.pairwise_cons.mp h'
      have value : e = e' := by
        have key := same e.1
        rw [get?, get?, if_pos rfl, if_pos first, Option.some.injEq] at key
        exact Prod.ext first key
      subst value
      rw [ih hm hm']
      intro name
      by_cases hname : name = e.1
      · rw [hname, get?_eq_none_of_lt hlt, get?_eq_none_of_lt hlt']
      · have key := same name
        rwa [get?, get?, if_neg hname, if_neg hname] at key

end GraphDoc.NameMap
