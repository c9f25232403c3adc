import GraphDoc.Document.Inline
import GraphDoc.Proofs.Store.Growth

/-!
# Well-formed literals

What the parser gives: names are names, and the words of the other literals are no enum values.
`Value.Written` holds of the trees of such literals, whose children fit their kinds.
-/

set_option autoImplicit false

namespace GraphDoc

namespace Grammar

/-- A letter or an underscore, then letters, digits and underscores. -/
def IsName (s : String) : Prop :=
  ∃ c cs, s.toList = c :: cs ∧ isNameStart c = true ∧ ∀ d ∈ cs, isNameChar d = true

inductive Literal.WellFormed : Literal → Prop where
  | var {name : String} (h : IsName name) : WellFormed (.var name)
  | int (value : Int) : WellFormed (.int value)
  | float (value : Binary64) : WellFormed (.float value)
  | string (text : String) : WellFormed (.string text)
  | boolean (value : Bool) : WellFormed (.boolean value)
  | null : WellFormed .null
  | enum {name : String} (h : IsName name) (hw : name ∉ ["true", "false", "null"]) :
      WellFormed (.enum name)
  | list {items : List Literal} (h : ∀ l ∈ items, l.WellFormed) : WellFormed (.list items)
  | object {fields : List (String × Literal)} (hn : ∀ f ∈ fields, IsName f.1)
      (h : ∀ f ∈ fields, f.2.WellFormed) : WellFormed (.object fields)

def Directive.WellFormed (d : Directive) : Prop := ∀ a ∈ d.arguments, a.2.WellFormed

/-- Well-formed selections with room for `n` levels of them. -/
inductive Selection.WellFormed : Nat → Selection → Prop where
  | field {n : Nat} {position : Position} {label? : Option String} {name : String}
      {arguments : List (String × Literal)} {directives : List Directive}
      {selections : List Selection} (ha : ∀ a ∈ arguments, a.2.WellFormed)
      (hd : ∀ d ∈ directives, d.WellFormed) (hs : ∀ x ∈ selections, x.WellFormed n) :
      WellFormed (n + 1) (.field position label? name arguments directives selections)
  | inline {n : Nat} {position : Position} {condition? : Option String}
      {directives : List Directive} {selections : List Selection}
      (hd : ∀ d ∈ directives, d.WellFormed) (hs : ∀ x ∈ selections, x.WellFormed n) :
      WellFormed (n + 1) (.inline position condition? directives selections)
  | spread {n : Nat} {position : Position} {name : String} {directives : List Directive}
      (hd : ∀ d ∈ directives, d.WellFormed) : WellFormed (n + 1) (.spread position name directives)

theorem Selection.WellFormed.mono {n : Nat} {x : Selection} (h : x.WellFormed n) {m : Nat}
    (hm : n ≤ m) : x.WellFormed m := by
  induction h generalizing m with
  | field ha hd _ ih =>
    obtain ⟨m, rfl⟩ : ∃ k, m = k + 1 := ⟨m - 1, by omega⟩
    exact .field ha hd fun x hx => ih x hx (by omega)
  | inline hd _ ih =>
    obtain ⟨m, rfl⟩ : ∃ k, m = k + 1 := ⟨m - 1, by omega⟩
    exact .inline hd fun x hx => ih x hx (by omega)
  | spread hd =>
    obtain ⟨m, rfl⟩ : ∃ k, m = k + 1 := ⟨m - 1, by omega⟩
    exact .spread hd

structure Operation.WellFormed (o : Operation) : Prop where
  declarations : ∀ v ∈ o.declarations, ∀ l, v.default? = some l → l.WellFormed
  directives : ∀ d ∈ o.directives, d.WellFormed
  selections : ∀ x ∈ o.selections, x.WellFormed depthLimit

structure Fragment.WellFormed (f : Fragment) : Prop where
  directives : ∀ d ∈ f.directives, d.WellFormed
  selections : ∀ x ∈ f.selections, x.WellFormed depthLimit

def Definition.WellFormed : Definition → Prop
  | .operation o => o.WellFormed
  | .fragment f => f.WellFormed

/-! ## Trees of literals -/

namespace Literal

theorem mem_itemValues {items : List Literal} {c : Option String × Value} :
    c ∈ itemValues items ↔ ∃ l ∈ items, c = (none, l.toValue) := by
  induction items with
  | nil => simp [itemValues]
  | cons l items ih => simp [itemValues, ih]

theorem mem_fieldValues {fields : List (String × Literal)} {c : Option String × Value} :
    c ∈ fieldValues fields ↔ ∃ f ∈ fields, c = (some f.1, f.2.toValue) := by
  induction fields with
  | nil => simp [fieldValues]
  | cons f fields ih =>
    obtain ⟨name, l⟩ := f
    simp [fieldValues, ih]

theorem WellFormed.shaped {l : Literal} (h : l.WellFormed) : l.toValue.Shaped := by
  induction h with
  | list _ ih =>
    rw [toValue, Value.composite]
    refine .node ?_ ?_ <;> intro c hc <;> obtain ⟨l, hl, rfl⟩ := mem_itemValues.mp hc
    · exact .inl ⟨rfl, rfl⟩
    · exact ih l hl
  | object _ _ ih =>
    rw [toValue, Value.composite]
    refine .node ?_ ?_ <;> intro c hc <;> obtain ⟨f, hf, rfl⟩ := mem_fieldValues.mp hc
    · exact .inr ⟨rfl, rfl⟩
    · exact ih f hf
  | _ =>
    rw [toValue, Value.leaf]
    exact .node (by simp) (by simp)

end Literal

end Grammar

open Grammar

/-- The tree of a well-formed literal. -/
def Value.Written (v : Value) : Prop := ∃ l : Literal, l.WellFormed ∧ v = l.toValue

namespace Value

theorem Written.shaped {v : Value} (h : v.Written) : v.Shaped := by
  obtain ⟨l, hl, rfl⟩ := h
  exact hl.shaped

theorem Written.child {v : Value} (h : v.Written) {c : Option String × Value}
    (hc : c ∈ v.children) : c.2.Written := by
  obtain ⟨l, hl, rfl⟩ := h
  cases hl with
  | list h =>
    rw [Literal.toValue] at hc
    obtain ⟨l, hm, rfl⟩ := Literal.mem_itemValues.mp hc
    exact ⟨l, h l hm, rfl⟩
  | object _ h =>
    rw [Literal.toValue] at hc
    obtain ⟨f, hm, rfl⟩ := Literal.mem_fieldValues.mp hc
    exact ⟨f.2, h f hm, rfl⟩
  | _ =>
    rw [Literal.toValue] at hc
    cases hc

theorem Written.field? {v w : Value} (h : v.Written) {name : String}
    (hw : v.field? name = some w) : w.Written := by
  obtain ⟨c, hc, rfl⟩ := Option.map_eq_some_iff.mp hw
  exact h.child (List.mem_of_find?_eq_some hc)

end Value

end GraphDoc
