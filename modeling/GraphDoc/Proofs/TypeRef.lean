import GraphDoc.Proofs.Grammar.WellFormed

/-!
# Types and their references

A type is written as opening brackets, its name and its wrappers, so a reference to it has the name
and the wrappers, and is written in the same way.
-/

set_option autoImplicit false

namespace GraphDoc

open Grammar (IsName)

namespace TypeExpr

/-- The name inside all wrappers. -/
def base : TypeExpr → String
  | named name => name
  | list item => item.base
  | nonNull item => item.base

/-- The wrappers around the name, from the inside out. -/
def wrappers : TypeExpr → List Char
  | named _ => []
  | list item => item.wrappers ++ [']']
  | nonNull item => item.wrappers ++ ['!']

/-- Some wrapper is a list. -/
def hasList : TypeExpr → Bool
  | named _ => false
  | list _ => true
  | nonNull item => item.hasList

theorem toList_text (e : TypeExpr) : e.text.toList =
    List.replicate (e.wrappers.count ']') '[' ++ (e.base.toList ++ e.wrappers) := by
  induction e with
  | named name => simp [text, base, wrappers]
  | list item ih =>
    simp only [text, base, wrappers, String.toList_append, ih, List.count_append,
      List.count_singleton_self, List.append_assoc, List.replicate_succ, List.cons_append]
    rfl
  | nonNull item ih =>
    have : [('!' : Char)].count ']' = 0 := by decide
    simp only [text, base, wrappers, String.toList_append, ih, List.count_append, this,
      Nat.add_zero, List.append_assoc]
    rfl

theorem isWrapper_of_mem_wrappers {e : TypeExpr} {c : Char} (h : c ∈ e.wrappers) :
    c = ']' ∨ c = '!' := by
  induction e with
  | named name => cases h
  | list item ih =>
    rcases List.mem_append.mp h with h | h
    · exact ih h
    · exact .inl (List.mem_singleton.mp h)
  | nonNull item ih =>
    rcases List.mem_append.mp h with h | h
    · exact ih h
    · exact .inr (List.mem_singleton.mp h)

theorem mem_wrappers_iff {e : TypeExpr} : ']' ∈ e.wrappers ↔ e.hasList := by
  induction e with
  | named name => simp [wrappers, hasList]
  | list item _ => simp [wrappers, hasList]
  | nonNull item ih => simp [wrappers, hasList, ih]

theorem getLast?_wrappers_iff {e : TypeExpr} :
    e.wrappers.getLast? = some '!' ↔ ∃ item, e = nonNull item := by
  cases e with
  | named name => simp [wrappers]
  | list item => simp [wrappers]
  | nonNull item => simp [wrappers]

end TypeExpr

namespace Modifiers

theorem strip?_append (wrapper c : Char) (inner : List Char) :
    strip? wrapper (inner ++ [c]) = if c = wrapper then some inner else none := by
  simp [strip?]

theorem itemChars_append (inner : List Char) : itemChars (inner ++ [']']) = inner := by
  simp [itemChars, strip?_append]

theorem itemChars_append_nonNull (inner : List Char) :
    itemChars (inner ++ [']'] ++ ['!']) = inner := by
  simp only [itemChars, strip?_append, if_true, Option.getD_some]

end Modifiers

namespace TypeRef

theorem isWrapper_of_isNameStart {c : Char} (h : isNameStart c) : isWrapper c = false := by
  rw [Bool.eq_false_iff]
  intro hw
  simp only [isWrapper, Bool.or_eq_true, decide_eq_true_eq] at hw
  rcases hw with (rfl | rfl) | rfl <;> cases h

theorem isNameChar_of_isNameStart {c : Char} (h : isNameStart c) : isNameChar c := by
  simp only [isNameStart, isNameChar, Bool.or_eq_true, Char.isAlphanum] at h ⊢
  exact h.imp_left .inl

theorem splitName_append {name : String} (h : IsName name) {rest : List Char}
    (stop : ∀ c ∈ rest, isNameChar c = false) :
    splitName (name.toList ++ rest) = (name.toList, rest) := by
  obtain ⟨c, cs, hname, hc, hcs⟩ := h
  have hc : isNameStart c := hc
  have chars : ∀ d ∈ c :: cs, isNameChar d :=
    List.forall_mem_cons.mpr ⟨isNameChar_of_isNameStart hc, hcs⟩
  have ends : rest.takeWhile isNameChar = [] ∧ rest.dropWhile isNameChar = rest := by
    cases rest with
    | nil => exact ⟨rfl, rfl⟩
    | cons d rest =>
      have := stop d List.mem_cons_self
      simp [this]
  rw [hname, List.cons_append, splitName, if_pos hc, ← List.cons_append,
    List.takeWhile_append_of_pos chars, List.dropWhile_append_of_pos chars, ends.1, ends.2,
    List.append_nil]

/-- The reference of a type has its name and its wrappers. -/
theorem ofExpr_eq {e : TypeExpr} (h : IsName e.base) :
    ofExpr e = ⟨e.base, String.ofList e.wrappers⟩ := by
  have opening : ∀ c ∈ List.replicate (e.wrappers.count ']') '[', isWrapper c := by
    intro c hc
    rw [List.eq_of_mem_replicate hc]
    rfl
  have first : (e.base.toList ++ e.wrappers).dropWhile isWrapper =
      e.base.toList ++ e.wrappers := by
    obtain ⟨c, cs, hname, hc, _⟩ := h
    rw [hname, List.cons_append, List.dropWhile_cons_of_neg]
    rw [isWrapper_of_isNameStart hc]
    decide
  have split : splitName (e.base.toList ++ e.wrappers) = (e.base.toList, e.wrappers) :=
    splitName_append h fun c hc => by
      rcases TypeExpr.isWrapper_of_mem_wrappers hc with rfl | rfl <;> rfl
  simp only [ofExpr, ofText, TypeExpr.toList_text, List.dropWhile_append_of_pos opening, first,
    split, String.ofList_toList]

theorem name_ofExpr {e : TypeExpr} (h : IsName e.base) : (ofExpr e).name = e.base := by
  rw [ofExpr_eq h]

/-- A reference is written like its type. -/
theorem text_ofExpr {e : TypeExpr} (h : IsName e.base) : (ofExpr e).text = e.text := by
  apply String.toList_inj.mp
  rw [ofExpr_eq h, TypeExpr.toList_text, text]
  simp only [String.toList_append, String.toList_ofList, List.append_assoc]

/-- A reference read from the text of a type says all that the type does, and taking a list off its
wrappers gives those of the items. -/
theorem ofText_faithful {e : TypeExpr} (h : IsName e.base) :
    (ofText e.text).name = e.base ∧
    (ofText e.text).text = e.text ∧
    ((ofText e.text).isList = true ↔ e.hasList = true) ∧
    ((ofText e.text).isNonNull = true ↔ ∃ item, e = .nonNull item) ∧
    ∀ item, e = .list item ∨ e = .nonNull (.list item) →
      Modifiers.item (ofText e.text).modifiers = (ofText item.text).modifiers := by
  have reference : ofText e.text = ⟨e.base, String.ofList e.wrappers⟩ := ofExpr_eq h
  refine ⟨name_ofExpr h, text_ofExpr h, ?_, ?_, ?_⟩
  · rw [reference, isList, Modifiers.isList, String.toList_ofList, List.contains_iff_mem]
    exact TypeExpr.mem_wrappers_iff
  · rw [reference, isNonNull, Modifiers.isNonNull, String.toList_ofList, beq_iff_eq]
    exact TypeExpr.getLast?_wrappers_iff
  · intro item he
    have inner : ofText item.text = ⟨item.base, String.ofList item.wrappers⟩ := by
      rcases he with rfl | rfl
      · exact ofExpr_eq h
      · exact ofExpr_eq h
    rw [reference, inner, Modifiers.item, String.toList_ofList]
    rcases he with rfl | rfl
    · rw [TypeExpr.wrappers, Modifiers.itemChars_append]
    · rw [TypeExpr.wrappers, TypeExpr.wrappers, Modifiers.itemChars_append_nonNull]

/-- Lists of lists, of which the inner ones may be missing but not their items. -/
def userRows : TypeExpr := .nonNull (.list (.list (.nonNull (.named "User"))))

theorem userRows_ofText_faithful : userRows.text = "[[User!]]!" ∧
    (ofText userRows.text).name = "User" ∧ (ofText userRows.text).text = userRows.text ∧
    (ofText userRows.text).isList = true ∧ (ofText userRows.text).isNonNull = true ∧
    Modifiers.item (ofText userRows.text).modifiers = (ofText "[User!]").modifiers := by
  obtain ⟨hname, htext, hlist, hnull, hitem⟩ :=
    ofText_faithful (e := userRows) ⟨'U', ['s', 'e', 'r'], rfl, rfl, List.all_eq_true.mp rfl⟩
  exact ⟨rfl, hname, htext, hlist.mpr rfl, hnull.mpr ⟨_, rfl⟩, hitem _ (.inr rfl)⟩

end TypeRef

end GraphDoc
