import GraphDoc.Proofs.Grammar.WellFormed
import GraphDoc.Proofs.NameMap

/-!
# Proper definitions

All that the grammar says of a definition: which words are names, what may not be empty, which
numbers there are, and how many brackets may be open at once. `Proper n` holds of what stands where
`n` more brackets may be opened.
-/

set_option autoImplicit false

namespace GraphDoc.Grammar

/-- A constant holds no variable. The fields of an object are in ascending order. -/
inductive Literal.Proper (constant : Bool) : Nat → Literal → Prop where
  | var {n : Nat} {name : String} (hc : constant = false) (h : IsName name) :
      Proper constant n (.var name)
  | int {n : Nat} {value : Int} (h : Whole.fitsSigned value = true) : Proper constant n (.int value)
  | float {n : Nat} (value : Binary64) : Proper constant n (.float value)
  | string {n : Nat} (text : String) : Proper constant n (.string text)
  | boolean {n : Nat} (value : Bool) : Proper constant n (.boolean value)
  | null {n : Nat} : Proper constant n .null
  | enum {n : Nat} {name : String} (h : IsName name) (hw : name ∉ ["true", "false", "null"]) :
      Proper constant n (.enum name)
  | list {n : Nat} {items : List Literal} (h : ∀ l ∈ items, l.Proper constant n) :
      Proper constant (n + 1) (.list items)
  | object {n : Nat} {fields : List (String × Literal)}
      (ordered : NameMap.Ascending fields) (hn : ∀ f ∈ fields, IsName f.1)
      (h : ∀ f ∈ fields, f.2.Proper constant n) : Proper constant (n + 1) (.object fields)

/-- No type is non-null twice over. -/
inductive ProperType : Nat → TypeExpr → Prop where
  | named {n : Nat} {name : String} (h : IsName name) : ProperType n (.named name)
  | list {n : Nat} {item : TypeExpr} (h : ProperType n item) : ProperType (n + 1) (.list item)
  | nonNull {n : Nat} {item : TypeExpr} (h : ProperType n item) (hb : ∀ t, item ≠ .nonNull t) :
      ProperType n (.nonNull item)

/-- Arguments are in parentheses. -/
def ProperArguments (n : Nat) (arguments : List (String × Literal)) : Prop :=
  ∀ a ∈ arguments, IsName a.1 ∧ 0 < n ∧ a.2.Proper false (n - 1)

structure Directive.Proper (n : Nat) (d : Directive) : Prop where
  name : IsName d.name
  arguments : ProperArguments n d.arguments

inductive Selection.Proper : Nat → Selection → Prop where
  | field {n : Nat} {position : Position} {label? : Option String} {name : String}
      {arguments : List (String × Literal)} {directives : List Directive}
      {selections : List Selection} (hl : ∀ l, label? = some l → IsName l) (hn : IsName name)
      (ha : ProperArguments n arguments) (hd : ∀ d ∈ directives, d.Proper n)
      (room : selections ≠ [] → 0 < n) (hs : ∀ x ∈ selections, x.Proper (n - 1)) :
      Proper n (.field position label? name arguments directives selections)
  | inline {n : Nat} {position : Position} {condition? : Option String}
      {directives : List Directive} {selections : List Selection}
      (hc : ∀ c, condition? = some c → IsName c) (hd : ∀ d ∈ directives, d.Proper n)
      (full : selections ≠ []) (room : 0 < n) (hs : ∀ x ∈ selections, x.Proper (n - 1)) :
      Proper n (.inline position condition? directives selections)
  | spread {n : Nat} {position : Position} {name : String} {directives : List Directive}
      (hn : IsName name) (hw : name ≠ "on") (hd : ∀ d ∈ directives, d.Proper n) :
      Proper n (.spread position name directives)

/-- The braces of a definition hold at least one selection. -/
def ProperBody (selections : List Selection) : Prop :=
  selections ≠ [] ∧ ∀ x ∈ selections, x.Proper (depthLimit - 1)

structure VariableDefinition.Proper (v : VariableDefinition) : Prop where
  name : IsName v.name
  type : ProperType (depthLimit - 1) v.type
  default : ∀ l, v.default? = some l → l.Proper true (depthLimit - 1)

structure Operation.Proper (o : Operation) : Prop where
  kind : o.kind.isOperation = true
  name : ∀ n, o.name? = some n → IsName n
  declarations : ∀ v ∈ o.declarations, v.Proper
  directives : ∀ d ∈ o.directives, d.Proper depthLimit
  body : ProperBody o.selections

structure Fragment.Proper (f : Fragment) : Prop where
  name : IsName f.name
  condition : IsName f.condition
  directives : ∀ d ∈ f.directives, d.Proper depthLimit
  body : ProperBody f.selections

def Definition.Proper : Definition → Prop
  | .operation o => o.Proper
  | .fragment f => f.Proper

/-! ## Well-formedness -/

theorem Literal.Proper.wellFormed {constant : Bool} {n : Nat} {l : Literal}
    (h : l.Proper constant n) : l.WellFormed := by
  induction h with
  | var _ h => exact .var h
  | int => exact .int _
  | float value => exact .float value
  | string text => exact .string text
  | boolean value => exact .boolean value
  | null => exact .null
  | enum h hw => exact .enum h hw
  | list _ ih => exact .list ih
  | object _ hn _ ih => exact .object hn ih

theorem Directive.Proper.wellFormed {n : Nat} {d : Directive} (h : d.Proper n) : d.WellFormed :=
  fun a ha => (h.arguments a ha).2.2.wellFormed

theorem Selection.Proper.wellFormed {n : Nat} {x : Selection} (h : x.Proper n) :
    x.WellFormed (n + 1) := by
  induction h with
  | @field n _ _ _ _ _ selections _ _ ha hd room _ ih =>
    refine .field (fun a hm => (ha a hm).2.2.wellFormed) (fun d hm => (hd d hm).wellFormed) ?_
    intro x hx
    have := room (List.ne_nil_of_mem hx)
    exact (ih x hx).mono (by omega)
  | inline _ hd _ room _ ih =>
    refine .inline (fun d hm => (hd d hm).wellFormed) fun x hx => ?_
    exact (ih x hx).mono (by omega)
  | spread _ _ hd => exact .spread fun d hm => (hd d hm).wellFormed

theorem ProperBody.wellFormed {selections : List Selection} (h : ProperBody selections) :
    ∀ x ∈ selections, x.WellFormed depthLimit :=
  fun x hx => (h.2 x hx).wellFormed

theorem Definition.Proper.wellFormed {d : Definition} (h : d.Proper) : d.WellFormed := by
  cases d with
  | operation o =>
    exact ⟨fun v hv l hl => ((h.declarations v hv).default l hl).wellFormed,
      fun d hd => (h.directives d hd).wellFormed, h.body.wellFormed⟩
  | fragment f => exact ⟨fun d hd => (h.directives d hd).wellFormed, h.body.wellFormed⟩

end GraphDoc.Grammar
