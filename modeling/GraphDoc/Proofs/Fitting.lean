import GraphDoc.Proofs.TypeRef

/-!
# Values that fit a type

`Value.Fits` says by recursion on a type which values it admits. The checker knows the type only by
the string of its wrappers and takes them off one by one from the outside; it accepts exactly the
values that fit.
-/

set_option autoImplicit false

namespace GraphDoc

open Grammar (IsName)

namespace TypeExpr

def isList : TypeExpr → Bool
  | list _ => true
  | _ => false

theorem head?_reverse_wrappers (e : TypeExpr) :
    e.wrappers.reverse.head? = some ']' ↔ e.isList = true := by
  cases e with
  | named name => simp [wrappers, isList]
  | list item => simp [wrappers, isList]
  | nonNull item => simp [wrappers, isList]

end TypeExpr

namespace Value

/-- The kinds that need no text of their own to be a value. -/
def textless : List ValueKind := [.object, .null, .string, .block]

/-- A variable fits every type. A single value must be there, and the fields of an object are not
looked at. A list that may not be null may not be empty either. -/
def Fits : TypeExpr → Value → Prop
  | .named _, v => v.kind = .var ∨ v.kind ≠ .list ∧ (v.kind ∈ textless ∨ v.raw ≠ "")
  | .list item, v =>
    v.kind = .var ∨ v.kind = .null ∨ v.kind = .list ∧ ∀ c ∈ v.children, Fits item c.2
  | .nonNull item, v =>
    v.kind = .var ∨
      v.kind ≠ .null ∧ ¬(item.isList = true ∧ v.kind = .list ∧ v.children = []) ∧ Fits item v

instance decidableFits : ∀ (e : TypeExpr) (v : Value), Decidable (Fits e v)
  | .named _, _ => inferInstanceAs (Decidable (_ ∨ _))
  | .list item, v =>
    have := decidableFits item
    inferInstanceAs (Decidable (_ ∨ _ ∨ _ ∧ ∀ c ∈ v.children, Fits item c.2))
  | .nonNull item, v =>
    have := decidableFits item v
    have : Decidable (v.children = []) := decidable_of_iff _ List.isEmpty_iff
    inferInstanceAs (Decidable (_ ∨ _ ∧ ¬(_ ∧ _ ∧ v.children = []) ∧ _))

theorem checkSingle_eq_ok_iff {v : Value} :
    checkSingle v = .ok () ↔ v.kind ≠ .list ∧ (v.kind ∈ textless ∨ v.raw ≠ "") := by
  rw [checkSingle]
  cases v.kind <;> simp [textless]

theorem checkItems_eq_ok_iff {check : Value → Except Misfit Unit} {index : Nat}
    {items : List (Option String × Value)} :
    checkItems check index items = .ok () ↔ ∀ c ∈ items, check c.2 = .ok () := by
  induction items generalizing index with
  | nil => simp [checkItems]
  | cons c items ih =>
    rw [checkItems, List.forall_mem_cons]
    cases check c.2 with
    | error reason => simp
    | ok _ => simp [ih]

theorem checkOuter_of_var {v : Value} (h : v.kind = .var) (wrappers : List Char) :
    checkOuter wrappers v = .ok () := by
  cases wrappers <;> simp [checkOuter, h]

theorem checkOuter_list_iff {inner : List Char} {v : Value} :
    checkOuter (']' :: inner) v = .ok () ↔ v.kind = .var ∨ v.kind = .null ∨
      v.kind = .list ∧ ∀ c ∈ v.children, checkOuter inner c.2 = .ok () := by
  by_cases hv : v.kind = .var
  · exact iff_of_true (checkOuter_of_var hv _) (.inl hv)
  · rw [checkOuter, if_neg hv, if_neg (by decide), if_pos rfl, or_iff_right hv]
    cases v.kind with
    | list => simp [checkItems_eq_ok_iff]
    | _ => simp

theorem checkOuter_nonNull_iff {inner : List Char} {v : Value} :
    checkOuter ('!' :: inner) v = .ok () ↔ v.kind = .var ∨ v.kind ≠ .null ∧
      ¬(inner.head? = some ']' ∧ v.kind = .list ∧ v.children = []) ∧
      checkOuter inner v = .ok () := by
  by_cases hv : v.kind = .var
  · exact iff_of_true (checkOuter_of_var hv _) (.inl hv)
  · rw [checkOuter, if_neg hv, if_pos rfl, or_iff_right hv]
    split
    · next hn => simp [hn]
    · next hn =>
      simp only [Bool.and_eq_true, decide_eq_true_eq, List.isEmpty_iff, and_assoc]
      split
      · next he => simp [he]
      · next he => exact ⟨fun h => ⟨hn, he, h⟩, fun h => h.2.2⟩

theorem checkOuter_eq_ok_iff (e : TypeExpr) (v : Value) :
    checkOuter e.wrappers.reverse v = .ok () ↔ Fits e v := by
  induction e generalizing v with
  | named name =>
    rw [TypeExpr.wrappers, List.reverse_nil, checkOuter, Fits]
    split
    · next hv => simp [hv]
    · next hv => rw [checkSingle_eq_ok_iff, or_iff_right hv]
  | list item ih =>
    rw [TypeExpr.wrappers, List.reverse_concat, checkOuter_list_iff, Fits]
    simp only [ih]
  | nonNull item ih =>
    rw [TypeExpr.wrappers, List.reverse_concat, checkOuter_nonNull_iff, Fits, ih,
      TypeExpr.head?_reverse_wrappers]

/-- The checker accepts exactly the values that fit: it reads off the wrappers of a type what
`Fits` reads off its tree. -/
theorem check_iff_fits {e : TypeExpr} (named : IsName e.base) (v : Value) :
    v.check (TypeRef.ofExpr e).modifiers = .ok () ↔ Fits e v := by
  rw [TypeRef.ofExpr_eq named, check, String.toList_ofList, checkOuter_eq_ok_iff]

section

/-- The type `[[Int!]!]`. -/
def matrix : TypeExpr := .list (.nonNull (.list (.nonNull (.named "Int"))))

def one : Value := .leaf .int "1"

def row (items : List Value) : Value := .composite .list (items.map fun v => (none, v))

/-- The list `[[1, $x], $y]` is a matrix. Neither `[[1], []]` nor `[[1, null]]` is one. -/
theorem matrix_check_iff_fits : IsName matrix.base ∧
    (row [row [one, .leaf .var "x"], .leaf .var "y"]).check
      (TypeRef.ofExpr matrix).modifiers = .ok () ∧
    (row [row [one], row []]).check (TypeRef.ofExpr matrix).modifiers ≠ .ok () ∧
    (row [row [one, .leaf .null "null"]]).check (TypeRef.ofExpr matrix).modifiers ≠ .ok () := by
  have named : IsName matrix.base := ⟨'I', ['n', 't'], rfl, rfl, List.all_eq_true.mp rfl⟩
  refine ⟨named, (check_iff_fits named _).mpr ?_, mt (check_iff_fits named _).mp ?_,
    mt (check_iff_fits named _).mp ?_⟩
  · decide
  · decide
  · decide

end

end Value

end GraphDoc
