import GraphDoc.Document.Print
import GraphDoc.Proofs.Faithful
import GraphDoc.Proofs.Grammar.Accepting
import GraphDoc.Proofs.Grammar.Lexing
import GraphDoc.Proofs.Grammar.TypeSystem

/-!
# Printed syntax

What is printed of a document is read as the tokens of its definition. A float may be printed like a
name, and U+0008 is printed as an escape that is read as another character, so a value that is
printed must be clear of both.
-/

set_option autoImplicit false

namespace GraphDoc

open Grammar

/-! ## Clear values -/

namespace Value

mutual

/-- Whether there is no float and no U+0008 in a value. -/
def isClear : Value → Bool
  | node kind raw children =>
    kind ≠ .float && (kind ≠ .string || raw.toList.all (·.toNat ≠ 8)) && areClear children

def areClear : List (Option String × Value) → Bool
  | [] => true
  | (_, v) :: rest => v.isClear && areClear rest

end

theorem areClear_iff {children : List (Option String × Value)} :
    areClear children ↔ ∀ c ∈ children, c.2.isClear := by
  induction children with
  | nil => simp [areClear]
  | cons c children ih => simp [areClear, ih]

end Value

def areClear (arguments : List (String × Value)) : Bool := arguments.all (·.2.isClear)

def DirectiveNode.isClear (d : DirectiveNode) : Bool := areClear d.arguments

namespace SelectionNode

mutual

/-- Whether all values on a selection and below it are clear. -/
def isClear : SelectionNode → Bool
  | node _ _ arguments directives children =>
    areClear arguments && directives.all (·.isClear) && allClear children

def allClear : List SelectionNode → Bool
  | [] => true
  | n :: ns => n.isClear && allClear ns

end

mutual

/-- Whether the schema has the fields that are selected here and below. -/
def resolves (schema : Schema) : SelectionNode → Bool
  | node _ row _ _ children =>
    (row.kind ≠ .field || (row.type?.bind schema.fieldType?).isSome) && allResolve schema children

def allResolve (schema : Schema) : List SelectionNode → Bool
  | [] => true
  | n :: ns => n.resolves schema && allResolve schema ns

end

/-- What stands after the directives of a selection. -/
def printTail (indent : String) : List SelectionNode → List Char
  | [] => ['\n']
  | ns => ' ' :: '\x7b' :: '\n' ::
    ((printAll ("  " ++ indent) ns).toList ++ (indent.toList ++ ['\x7d', '\n']))

theorem toList_print (indent : String) (id : Int) (row : SelectionRow)
    (arguments : List (String × Value)) (directives : List DirectiveNode)
    (children : List SelectionNode) :
    ((node id row arguments directives children).print indent).toList =
      indent.toList ++ ((head row arguments).toList ++
        ((printDirectives directives).toList ++ printTail indent children)) := by
  cases children with
  | nil => simp [print, printTail]
  | cons n ns => simp [print, printTail]

end SelectionNode

namespace Grammar

/-! ## Pieces of text -/

/-- The text is read as these tokens, where what follows ends a word. -/
def Reads (depth : Nat) (text : String) (ts : List Token) : Prop :=
  ∀ r rs, Ends r → Yields depth r rs → Yields depth (text.toList ++ r) (ts ++ rs)

section

variable {α : Type} {depth n : Nat}

theorem reads_name (name : String) (h : IsName name) : Reads depth name [.name name] :=
  fun _ _ stop hr => .name h stop hr

/-- Pieces with commas between them. -/
theorem reads_joined {xs : List α} {text : α → String} {w : α → List Token}
    (h : ∀ x ∈ xs, Reads depth (text x) (w x)) :
    Reads depth (Text.joinWith ", " (xs.map text)) (xs.flatMap w) := by
  induction xs with
  | nil => exact fun _ _ _ hr => hr
  | cons x xs ih =>
    intro r rs stop hr
    rw [List.forall_mem_cons] at h
    rw [List.flatMap_cons, List.append_assoc]
    cases xs with
    | nil => exact h.1 r rs stop hr
    | cons y ys =>
      rw [List.map_cons, List.map_cons, Text.joinWith, String.toList_append, String.toList_append,
        List.append_assoc, List.append_assoc]
      · exact h.1 _ _ (.cons rfl _) (.blank (by decide) (.blank (by decide) (ih h.2 r rs stop hr)))
      · exact nofun

end

/-! ## Values and types -/

section

variable {depth n : Nat} {constant : Bool}

theorem printItems_eq (items : List Literal) : Value.printItems (Literal.itemValues items) =
    Text.joinWith ", " (items.map (·.toValue.print)) := by
  induction items with
  | nil => rfl
  | cons l items ih =>
    cases items with
    | nil => rfl
    | cons m items => exact congrArg (l.toValue.print ++ ", " ++ ·) ih

/-- An argument or a field of an object, as it is printed. -/
def printNamed (a : String × Value) : String := a.1 ++ ": " ++ a.2.print

theorem printFields_eq (fields : List (String × Literal)) :
    Value.printFields (Literal.fieldValues fields) =
      Text.joinWith ", " ((literalValues fields).map printNamed) := by
  induction fields with
  | nil => rfl
  | cons f fields ih =>
    cases fields with
    | nil => rfl
    | cons g fields => exact congrArg (printNamed (f.1, f.2.toValue) ++ ", " ++ ·) ih

theorem reads_named {f : String × Literal} (hn : IsName f.1)
    (h : Reads depth f.2.toValue.print f.2.tokens) :
    Reads depth (printNamed (f.1, f.2.toValue)) (fieldTokens f) := by
  intro r rs stop hr
  rw [printNamed, String.toList_append, String.toList_append, List.append_assoc, List.append_assoc]
  exact .name hn (.cons rfl _) (.sign (p := .colon) rfl rfl (.blank (by decide) (h r rs stop hr)))

theorem reads_literal {l : Literal} (h : l.Proper constant n) (room : depth + n ≤ depthLimit)
    (clear : l.toValue.isClear) : Reads depth l.toValue.print l.tokens := by
  induction h generalizing depth with
  | var _ h =>
    intro r rs stop hr
    change Yields depth ((Value.leaf .var _).chars ++ r) _
    rw [Value.chars_var]
    exact .sign (p := .dollar) rfl rfl (.name h stop hr)
  | int h => exact fun r rs stop hr => .int h stop hr
  | float value => simp [Literal.toValue, Value.leaf, Value.isClear] at clear
  | string text =>
    intro r rs stop hr
    simp only [Literal.toValue, Value.leaf, Value.isClear, Bool.and_eq_true] at clear
    have chars : ∀ c ∈ text.toList, c.toNat ≠ 8 := by simpa using clear.1.2
    change Yields depth ((Value.leaf .string text).chars ++ r) _
    rw [Value.chars_string]
    exact .string chars stop hr
  | boolean value => cases value <;> exact reads_name _ (.of_chars rfl rfl rfl)
  | null => exact reads_name _ (.of_chars rfl rfl rfl)
  | enum h hw => exact reads_name _ h
  | @list n items h ih =>
    intro r rs stop hr
    simp only [Literal.toValue, Value.composite, Value.isClear, Bool.and_eq_true,
      Value.areClear_iff] at clear
    have inner : Reads (depth + 1) (Text.joinWith ", " (items.map (·.toValue.print)))
        (items.flatMap Literal.tokens) := reads_joined fun l hl =>
      ih l hl (by omega) (clear.2 _ (Literal.mem_itemValues.mpr ⟨l, hl, rfl⟩))
    rw [Literal.toValue, Value.composite, Value.print, printItems_eq, Literal.tokens,
      Literal.itemTokens_eq, String.toList_append, String.toList_append, List.append_assoc,
      List.append_assoc, List.cons_append, List.append_assoc]
    exact .opens (p := .openBracket) rfl rfl (by omega)
      (inner _ _ (.cons rfl _) (.closes (p := .closeBracket) rfl rfl hr))
  | @object n fields ordered hn h ih =>
    intro r rs stop hr
    simp only [Literal.toValue, Value.composite, Value.isClear, Bool.and_eq_true,
      Value.areClear_iff] at clear
    have inner : Reads (depth + 1)
        (Text.joinWith ", " (fields.map fun f => printNamed (f.1, f.2.toValue)))
        (fields.flatMap fieldTokens) := reads_joined fun f hf => reads_named (hn f hf)
      (ih f hf (by omega) (clear.2 _ (Literal.mem_fieldValues.mpr ⟨f, hf, rfl⟩)))
    rw [Literal.toValue, Value.composite, Value.print, printFields_eq, Literal.tokens,
      Literal.namedTokens_eq, String.toList_append, String.toList_append, List.append_assoc,
      List.append_assoc, List.cons_append, List.append_assoc, literalValues, List.map_map]
    exact .opens (p := .openBrace) rfl rfl (by omega)
      (inner _ _ (.cons rfl _) (.closes (p := .closeBrace) rfl rfl hr))

theorem reads_type {type : TypeExpr} (h : ProperType n type) (room : depth + n ≤ depthLimit) :
    Reads depth type.text (typeTokens type) := by
  induction h generalizing depth with
  | named h => exact reads_name _ h
  | @list n item _ ih =>
    intro r rs stop hr
    have inner : Reads (depth + 1) item.text (typeTokens item) := ih (by omega)
    rw [TypeExpr.text, typeTokens, String.toList_append, String.toList_append, List.append_assoc,
      List.append_assoc, List.cons_append, List.append_assoc]
    exact .opens (p := .openBracket) rfl rfl (by omega)
      (inner _ _ (.cons rfl _) (.closes (p := .closeBracket) rfl rfl hr))
  | nonNull _ _ ih =>
    intro r rs stop hr
    rw [TypeExpr.text, typeTokens, String.toList_append, List.append_assoc, List.append_assoc]
    exact ih room _ _ (.cons rfl _) (.sign (p := .bang) rfl rfl hr)

/-! ## Arguments and directives -/

theorem reads_arguments {as : List (String × Literal)} (h : ProperArguments n as)
    (room : depth + n ≤ depthLimit) (clear : areClear (literalValues as)) :
    Reads depth (printArguments (literalValues as)) (argumentTokens as) := by
  intro r rs stop hr
  cases as with
  | nil => exact hr
  | cons a as =>
    have pos := (h a List.mem_cons_self).2.1
    have inner : Reads (depth + 1)
        (Text.joinWith ", " ((a :: as).map fun a => printNamed (a.1, a.2.toValue)))
        ((a :: as).flatMap fieldTokens) := reads_joined fun b hb =>
      reads_named (h b hb).1 (reads_literal (h b hb).2.2 (by omega)
        (List.all_eq_true.mp clear _ (List.mem_map_of_mem hb)))
    rw [printArguments, argumentTokens, if_neg (by simp [literalValues]), if_neg (by simp),
      String.toList_append, String.toList_append, List.append_assoc, List.append_assoc,
      List.cons_append, List.append_assoc, literalValues, List.map_map]
    exact .opens (p := .openParen) rfl rfl (by omega)
      (inner _ _ (.cons rfl _) (.closes (p := .closeParen) rfl rfl hr))

theorem ends_arguments (as : List (String × Value)) {r : List Char} (h : Ends r) :
    Ends ((printArguments as).toList ++ r) := by
  rw [printArguments]
  split
  · exact h
  · rw [String.toList_append, String.toList_append, List.append_assoc, List.append_assoc]
    exact .cons rfl _

theorem printDirectives_cons (d : DirectiveNode) (ds : List DirectiveNode) :
    (printDirectives (d :: ds)).toList =
      ' ' :: '@' :: (d.name.toList ++ ((printArguments d.arguments).toList ++
        (printDirectives ds).toList)) := by
  simp [printDirectives]

theorem ends_directives (ds : List DirectiveNode) {r : List Char} (h : Ends r) :
    Ends ((printDirectives ds).toList ++ r) := by
  cases ds with
  | nil => exact h
  | cons d ds =>
    rw [printDirectives_cons]
    exact .cons rfl _

theorem reads_directives {ds : List Directive} (h : ∀ d ∈ ds, d.Proper n)
    (room : depth + n ≤ depthLimit)
    (clear : (ds.map Directive.node).all (·.isClear)) :
    Reads depth (printDirectives (ds.map Directive.node)) (ds.flatMap Directive.tokens) := by
  induction ds with
  | nil => exact fun _ _ _ hr => hr
  | cons d ds ih =>
    intro r rs stop hr
    rw [List.forall_mem_cons] at h
    rw [List.map_cons, List.all_cons, Bool.and_eq_true] at clear
    have rest := ih h.2 clear.2 r rs stop hr
    have arguments := reads_arguments h.1.arguments room clear.1 _ _ (ends_directives _ stop) rest
    rw [List.map_cons, printDirectives_cons, List.flatMap_cons, Directive.tokens]
    simp only [List.cons_append, List.append_assoc]
    exact .blank (by decide) (.sign (p := .atSign) rfl rfl
      (.name h.1.name (ends_arguments _ (ends_directives _ stop)) arguments))

end

/-! ## Selections -/

/-- The type below a field of `scope?`. -/
def fieldScope? (schema : Schema) (scope? : Option String) (name : String) : Option String :=
  ((scope?.map (Schema.idOf · name)).bind schema.fieldType?).map (·.name)

mutual

/-- The selection as it is printed: an inline fragment has the condition that it inherits, and a
label that is the name of its field is left out. -/
def Selection.settled (schema : Schema) (scope? : Option String) : Selection → Selection
  | .field position label? name arguments directives selections =>
    .field position (if label? = some name then none else label?) name arguments directives
      (Selection.allSettled schema (fieldScope? schema scope? name) selections)
  | .inline position condition? directives selections =>
    .inline position (condition?.orElse fun _ => scope?) directives
      (Selection.allSettled schema (condition?.orElse fun _ => scope?) selections)
  | .spread position name directives => .spread position name directives

def Selection.allSettled (schema : Schema) (scope? : Option String) :
    List Selection → List Selection
  | [] => []
  | x :: rest => x.settled schema scope? :: Selection.allSettled schema scope? rest

end

theorem Selection.allSettled_eq (schema : Schema) (scope? : Option String) (xs : List Selection) :
    Selection.allSettled schema scope? xs = xs.map (Selection.settled schema scope?) := by
  induction xs with
  | nil => rfl
  | cons x xs ih => rw [Selection.allSettled, ih, List.map_cons]

section

variable {schema : Schema} {n : Nat}

/-- What is printed of a selection is read as the tokens of the settled selection. -/
def Printed (schema : Schema) (scope : String) (depth : Nat) (x : Selection) : Prop :=
  ∀ indent : String, (∀ c ∈ indent.toList, c = ' ') → ∀ r rs, Yields depth r rs →
    Yields depth (((x.node schema (some scope)).print indent).toList ++ r)
      ((x.settled schema (some scope)).tokens ++ rs)

theorem yields_all {scope : String} {depth : Nat} {xs : List Selection}
    (h : ∀ x ∈ xs, Printed schema scope depth x) {indent : String}
    (blank : ∀ c ∈ indent.toList, c = ' ') {r : List Char} {rs : List Token}
    (hr : Yields depth r rs) :
    Yields depth
      ((SelectionNode.printAll indent (Selection.nodes schema (some scope) xs)).toList ++ r)
      ((Selection.allSettled schema (some scope) xs).flatMap Selection.tokens ++ rs) := by
  induction xs with
  | nil => exact hr
  | cons x xs ih =>
    rw [List.forall_mem_cons] at h
    rw [Selection.nodes, SelectionNode.printAll, Selection.allSettled, List.flatMap_cons,
      String.toList_append, List.append_assoc, List.append_assoc]
    exact h.1 indent blank _ _ (ih h.2)

/-- Selections in braces. -/
theorem yields_body {scope : String} {depth : Nat} {xs : List Selection}
    (h : ∀ x ∈ xs, Printed schema scope (depth + 1) x) (room : depth < depthLimit)
    (indent inner : String) (blank : ∀ c ∈ indent.toList, c = ' ')
    (blank' : ∀ c ∈ inner.toList, c = ' ') {r : List Char} {rs : List Token}
    (hr : Yields depth r rs) :
    Yields depth ('\x7b' :: '\n' ::
        ((SelectionNode.printAll inner (Selection.nodes schema (some scope) xs)).toList ++
          (indent.toList ++ '\x7d' :: r)))
      (bodyTokens (Selection.allSettled schema (some scope) xs) ++ rs) := by
  rw [bodyTokens, List.cons_append, List.append_assoc]
  exact .opens (p := .openBrace) rfl rfl room (.blank (by decide)
    (yields_all h blank' (.blanks blank (.closes (p := .closeBrace) rfl rfl hr))))

theorem yields_tail {scope : String} {depth : Nat} {xs : List Selection}
    (h : ∀ x ∈ xs, Printed schema scope (depth + 1) x) (room : xs ≠ [] → depth < depthLimit)
    {indent : String} (blank : ∀ c ∈ indent.toList, c = ' ') {r : List Char} {rs : List Token}
    (hr : Yields depth r rs) :
    Yields depth (SelectionNode.printTail indent (Selection.nodes schema (some scope) xs) ++ r)
      (tailTokens (Selection.allSettled schema (some scope) xs) ++ rs) := by
  cases xs with
  | nil => exact .blank (by decide) hr
  | cons x xs =>
    have blank' : ∀ c ∈ ("  " ++ indent).toList, c = ' ' := by
      rw [String.toList_append]
      exact List.forall_mem_append.mpr ⟨by simp, blank⟩
    have body := yields_body h (room (List.cons_ne_nil x xs)) indent _ blank blank'
      (.blank (c := '\n') (by decide) hr)
    rw [Selection.nodes, SelectionNode.printTail, ← Selection.nodes]
    · simp only [List.cons_append, List.append_assoc, List.nil_append]
      exact .blank (by decide) body
    · exact nofun

theorem ends_tail (indent : String) (ns : List SelectionNode) (r : List Char) :
    Ends (SelectionNode.printTail indent ns ++ r) := by
  cases ns <;> exact .cons rfl _

theorem reads_head {depth : Nat} {label? : Option String} {name : String} (type? : Option String)
    {as : List (String × Literal)} (hl : ∀ l, label? = some l → IsName l) (hn : IsName name)
    (ha : ProperArguments n as) (room : depth + n ≤ depthLimit)
    (clear : areClear (literalValues as)) :
    Reads depth (SelectionNode.head ⟨name, label?, .field, type?⟩ (literalValues as))
      (labelTokens (if label? = some name then none else label?) ++
        .name name :: argumentTokens as) := by
  intro r rs stop hr
  have arguments := reads_arguments ha room clear r rs stop hr
  have plain : Yields depth (name.toList ++ ((printArguments (literalValues as)).toList ++ r))
      (.name name :: (argumentTokens as ++ rs)) :=
    .name hn (ends_arguments _ stop) arguments
  cases label? with
  | none =>
    simp only [SelectionNode.head, String.toList_append, List.append_assoc]
    exact plain
  | some label =>
    by_cases same : label = name
    · subst same
      simp only [SelectionNode.head, beq_self_eq_true, if_true, String.toList_append,
        List.append_assoc, labelTokens]
      exact plain
    · have other : (label == name) = false := by simpa using same
      have other' : ¬ some label = some name := fun heq => same (Option.some.inj heq)
      simp only [SelectionNode.head, other, Bool.false_eq_true, if_false, if_neg other',
        String.toList_append, List.append_assoc, labelTokens]
      exact .name (hl label rfl) (.cons rfl _) (.sign (p := .colon) rfl rfl
        (.blank (by decide) plain))

theorem allClear_nodes {scope? : Option String} {xs : List Selection} :
    SelectionNode.allClear (Selection.nodes schema scope? xs) ↔
      ∀ x ∈ xs, (x.node schema scope?).isClear := by
  induction xs with
  | nil => simp [Selection.nodes, SelectionNode.allClear]
  | cons x xs ih => simp [Selection.nodes, SelectionNode.allClear, ih]

theorem allResolve_nodes {scope? : Option String} {xs : List Selection} :
    SelectionNode.allResolve schema (Selection.nodes schema scope? xs) ↔
      ∀ x ∈ xs, (x.node schema scope?).resolves schema := by
  induction xs with
  | nil => simp [Selection.nodes, SelectionNode.allResolve]
  | cons x xs ih => simp [Selection.nodes, SelectionNode.allResolve, ih]

/-- The types of fields have names. -/
def NamesTypes (schema : Schema) : Prop :=
  ∀ id t, schema.fieldType? id = some t → IsName t.name

theorem exists_inner {condition? : Option String} (hc : ∀ c, condition? = some c → IsName c)
    {scope : String} (hscope : IsName scope) :
    ∃ inner, (condition?.orElse fun _ => some scope) = some inner ∧ IsName inner := by
  cases condition? with
  | none => exact ⟨scope, rfl, hscope⟩
  | some condition => exact ⟨condition, rfl, hc condition rfl⟩

theorem tailTokens_allSettled {scope? : Option String} {xs : List Selection} (full : xs ≠ []) :
    tailTokens (Selection.allSettled schema scope? xs) =
      bodyTokens (Selection.allSettled schema scope? xs) := by
  refine if_neg ?_
  rw [Selection.allSettled_eq]
  simpa using full

theorem printed_selection (named : NamesTypes schema) {x : Selection} (h : x.Proper n)
    {scope : String} (hscope : IsName scope) {depth : Nat} (room : depth + n ≤ depthLimit)
    (clear : (x.node schema (some scope)).isClear)
    (resolves : (x.node schema (some scope)).resolves schema) :
    Printed schema scope depth x := by
  induction h generalizing scope depth with
  | @field n position label? name as ds xs hl hn ha hd hroom hs ih =>
    intro indent blank r rs hr
    simp only [Selection.node, SelectionNode.isClear, Bool.and_eq_true, allClear_nodes] at clear
    simp only [Selection.node, SelectionNode.resolves, Bool.and_eq_true, allResolve_nodes,
      ne_eq, not_true_eq_false, decide_false, Bool.false_or] at resolves
    obtain ⟨type, htype⟩ := Option.isSome_iff_exists.mp resolves.1
    rw [htype, Option.map_some] at clear resolves
    have inner : ∀ x ∈ xs, Printed schema type.name (depth + 1) x := fun x hx =>
      have := hroom (List.ne_nil_of_mem hx)
      ih x hx (named _ type htype) (by omega) (clear.2 x hx) (resolves.2 x hx)
    have tail := yields_tail inner (fun hne => by have := hroom hne; omega) blank hr
    have directives := reads_directives hd room clear.1.2 _ _ (ends_tail indent _ r) tail
    have head := reads_head (some (Schema.idOf scope name)) hl hn ha room clear.1.1 _ _
      (ends_directives _ (ends_tail indent _ r)) directives
    rw [Selection.node, SelectionNode.toList_print, Selection.settled, Selection.tokens_field,
      fieldScope?, htype, Option.map_some]
    simp only [List.append_assoc, List.cons_append] at head ⊢
    exact .blanks blank head
  | @inline n position condition? ds xs hc hd full hroom hs ih =>
    intro indent blank r rs hr
    obtain ⟨inner, hinner, hname⟩ := exists_inner hc hscope
    simp only [Selection.node, SelectionNode.isClear, Bool.and_eq_true, allClear_nodes,
      hinner] at clear
    simp only [Selection.node, SelectionNode.resolves, Bool.and_eq_true, allResolve_nodes,
      hinner] at resolves
    have below : ∀ x ∈ xs, Printed schema inner (depth + 1) x := fun x hx =>
      ih x hx hname (by omega) (clear.2 x hx) (resolves.2 x hx)
    have tail := yields_tail below (fun _ => by omega) blank hr
    have directives := reads_directives hd room clear.1.2 _ _ (ends_tail indent _ r) tail
    rw [tailTokens_allSettled full] at directives
    rw [Selection.node, SelectionNode.toList_print, Selection.settled, Selection.tokens_inline,
      hinner]
    simp only [SelectionNode.head, conditionTokens, String.toList_append, Option.getD_some,
      List.append_assoc, List.cons_append, List.nil_append]
    refine .blanks blank (.dots (.blank (by decide) ?_))
    refine reads_name "on" (.of_chars rfl rfl rfl) _ _ (.cons rfl _) ?_
    exact .blank (by decide) (.name hname (ends_directives _ (ends_tail indent _ r)) directives)
  | @spread n position name ds hn hw hd =>
    intro indent blank r rs hr
    simp only [Selection.node, SelectionNode.isClear, Bool.and_eq_true] at clear
    have directives := reads_directives hd room clear.1.2 _ _ (ends_tail indent [] r)
      (.blank (by decide) hr)
    rw [Selection.node, SelectionNode.toList_print, Selection.settled, Selection.tokens]
    simp only [SelectionNode.head, String.toList_append, List.append_assoc, List.cons_append]
    exact .blanks blank (.dots (.name hn (ends_directives _ (ends_tail indent [] r)) directives))

end

theorem Selection.Proper.settled {schema : Schema} (named : NamesTypes schema) {n : Nat}
    {x : Selection} (h : x.Proper n) {scope : String} (hscope : IsName scope)
    (resolves : (x.node schema (some scope)).resolves schema) :
    (x.settled schema (some scope)).Proper n := by
  induction h generalizing scope with
  | @field n position label? name as ds xs hl hn ha hd hroom hs ih =>
    simp only [Selection.node, SelectionNode.resolves, Bool.and_eq_true, allResolve_nodes,
      ne_eq, not_true_eq_false, decide_false, Bool.false_or] at resolves
    obtain ⟨type, htype⟩ := Option.isSome_iff_exists.mp resolves.1
    rw [htype, Option.map_some] at resolves
    rw [Selection.settled, fieldScope?, htype, Option.map_some, Selection.allSettled_eq]
    refine .field (fun l hl' => ?_) hn ha hd (by simpa using hroom) ?_
    · split at hl'
      · cases hl'
      · exact hl l hl'
    · refine List.forall_mem_map.mpr fun x hx => ?_
      exact ih x hx (named _ type htype) (resolves.2 x hx)
  | @inline n position condition? ds xs hc hd full hroom hs ih =>
    obtain ⟨inner, hinner, hname⟩ := exists_inner hc hscope
    simp only [Selection.node, SelectionNode.resolves, Bool.and_eq_true, allResolve_nodes,
      hinner] at resolves
    rw [Selection.settled, hinner, Selection.allSettled_eq]
    refine .inline (fun c hc => Option.some.inj hc ▸ hname) hd (by simpa using full) hroom ?_
    exact List.forall_mem_map.mpr fun x hx => ih x hx hname (resolves.2 x hx)
  | spread hn hw hd => exact .spread hn hw hd

end Grammar

/-- The row without a label that is the name of the field. -/
def SelectionRow.plain (row : SelectionRow) : SelectionRow :=
  { row with label? := if row.label? = some row.name then none else row.label? }

namespace SelectionNode

/-- The selections without labels that are the names of their fields. -/
def allPlain (ns : List SelectionNode) : List SelectionNode :=
  rewriteAll (fun id => id) (fun _ row => row.plain) (fun v => v) ns

end SelectionNode

namespace Grammar

section

variable (schema : Schema)

mutual

theorem node_settled (scope? : Option String) : (x : Selection) →
    (x.settled schema scope?).node schema scope? =
      (x.node schema scope?).rewrite (fun id => id) (fun _ row => row.plain) (fun v => v)
  | .field position label? name arguments directives selections => by
    have below := nodes_allSettled (fieldScope? schema scope? name) selections
    simp only [Selection.settled, Selection.node, SelectionNode.rewrite, List.map_id']
    rw [← fieldScope?, below]
    rfl
  | .inline position condition? directives selections => by
    have below := nodes_allSettled (condition?.orElse fun _ => scope?) selections
    have twice : ((condition?.orElse fun _ => scope?).orElse fun _ => scope?) =
        condition?.orElse fun _ => scope? := by
      cases condition? <;> cases scope? <;> rfl
    simp only [Selection.settled, Selection.node, SelectionNode.rewrite, List.map_nil]
    rw [twice, below]
    rfl
  | .spread position name directives => rfl

theorem nodes_allSettled (scope? : Option String) : (xs : List Selection) →
    Selection.nodes schema scope? (Selection.allSettled schema scope? xs) =
      SelectionNode.allPlain (Selection.nodes schema scope? xs)
  | [] => rfl
  | x :: rest => by
    rw [Selection.allSettled, Selection.nodes, Selection.nodes, node_settled scope? x,
      nodes_allSettled scope? rest]
    rfl

end

mutual

theorem node_unplaced (scope? : Option String) : (x : Selection) →
    x.unplaced.node schema scope? = x.node schema scope?
  | .field position label? name arguments directives selections => by
    simp only [Selection.unplaced, Selection.node, List.map_map,
      nodes_allUnplaced _ selections]
    rfl
  | .inline position condition? directives selections => by
    simp only [Selection.unplaced, Selection.node, List.map_map,
      nodes_allUnplaced _ selections]
    rfl
  | .spread position name directives => by
    simp only [Selection.unplaced, Selection.node, List.map_map]
    rfl

theorem nodes_allUnplaced (scope? : Option String) : (xs : List Selection) →
    Selection.nodes schema scope? (Selection.allUnplaced xs) = Selection.nodes schema scope? xs
  | [] => rfl
  | x :: rest => by
    rw [Selection.allUnplaced, Selection.nodes, Selection.nodes, node_unplaced scope? x,
      nodes_allUnplaced scope? rest]

end

end

end Grammar

end GraphDoc
