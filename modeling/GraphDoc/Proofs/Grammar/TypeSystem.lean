import GraphDoc.Proofs.Grammar.Parsing
import GraphDoc.Proofs.TypeRef
import GraphDoc.Schema.Load

/-!
# Parsed schemas are proper

The types that a parsed schema defines have names, and so have those that it refers to.
-/

set_option autoImplicit false

namespace GraphDoc.Grammar

/-- What a definition or an extension says of a type. -/
def SchemaDefinition.body? : SchemaDefinition → Option TypeDefinition
  | .type t => some t
  | .extension t => some t
  | _ => none

/-- The types that are written in a definition. -/
def TypeDefinition.types : TypeDefinition → List TypeExpr
  | .object _ _ fields => fields.flatMap fun f => f.type :: f.arguments.map (·.type)
  | .interface _ fields => fields.flatMap fun f => f.type :: f.arguments.map (·.type)
  | .input _ fields => fields.map (·.type)
  | _ => []

structure TypeDefinition.Proper (t : TypeDefinition) : Prop where
  name : IsName (Schema.defined t).1
  types : ∀ e ∈ t.types, IsName e.base

def SchemaDefinition.Proper (d : SchemaDefinition) : Prop := ∀ t, d.body? = some t → t.Proper

def InputValue.Proper (v : InputValue) : Prop := IsName v.type.base

structure FieldDefinition.Proper (f : FieldDefinition) : Prop where
  type : IsName f.type.base
  arguments : ∀ a ∈ f.arguments, a.Proper

theorem ProperType.isName_base {n : Nat} {e : TypeExpr} (h : ProperType n e) : IsName e.base := by
  induction h with
  | named h => exact h
  | list _ ih => exact ih
  | nonNull _ _ ih => exact ih

theorem forall_mem_types {fields : List FieldDefinition} (h : ∀ f ∈ fields, f.Proper) :
    ∀ e ∈ fields.flatMap fun f => f.type :: f.arguments.map (·.type), IsName e.base := by
  intro e he
  obtain ⟨f, hf, he⟩ := List.mem_flatMap.mp he
  rcases List.mem_cons.mp he with rfl | he
  · exact (h f hf).type
  · obtain ⟨a, ha, rfl⟩ := List.mem_map.mp he
    exact (h f hf).arguments a ha

open GraphDoc.Grammar.Parser

section

variable {α : Type} {P : α → Prop} {depth : Nat}

theorem item_description? : Item depth (fun _ => True) description? := by
  refine Meets.bind meets_peek fun t => ?_
  split
  · next text ht => exact (meets_advance ht).bind fun _ => .pure fun _ h => ⟨trivial, h⟩
  · exact .pure fun _ h => ⟨trivial, h.1⟩

theorem item_inputValue (fuel : Nat) : Item depth InputValue.Proper (inputValue fuel) := by
  refine Meets.bind item_description? fun about? => .given fun _ => ?_
  refine Meets.bind meets_name fun text => .given fun _ => ?_
  refine Meets.bind (meets_punct .colon) fun _ => ?_
  refine Meets.bind (item_typeExpr fuel) fun type => .given fun ht => ?_
  have rest : ∀ default? : Option Literal, Item depth InputValue.Proper (do
      let _ ← directives fuel
      return ⟨about?, text, type, default?⟩) := by
    intro default?
    refine Meets.bind (item_directives fuel) fun ds => .given fun _ => ?_
    exact .pure fun _ h => ⟨ht.isName_base, h⟩
  refine Meets.bind (meets_optionalPunct .equals) fun found => ?_
  cases found with
  | true =>
    refine Meets.bind (item_literal true fuel).map fun default? => ?_
    exact (rest default?).mono (fun _ ⟨_, _, h⟩ => h.2) fun _ _ h => h
  | false => exact rest none

theorem item_argumentDefinitions (fuel : Nat) :
    Item depth (fun as => ∀ a ∈ as, a.Proper) (argumentDefinitions fuel) := by
  refine Meets.bind (meets_optionalPunct .openParen) fun found => ?_
  cases found with
  | true =>
    refine (meets_someUntil (item_inputValue fuel)).mono (fun _ h => h) ?_
    exact fun as _ h => ⟨h.1.2, h.2⟩
  | false => exact .pure fun _ h => ⟨by simp, h⟩

theorem item_fieldDefinition (fuel : Nat) :
    Item depth FieldDefinition.Proper (fieldDefinition fuel) := by
  refine Meets.bind item_description? fun about? => .given fun _ => ?_
  refine Meets.bind meets_name fun text => .given fun _ => ?_
  refine Meets.bind (item_argumentDefinitions fuel) fun args => .given fun ha => ?_
  refine Meets.bind (meets_punct .colon) fun _ => ?_
  refine Meets.bind (item_typeExpr fuel) fun type => .given fun ht => ?_
  refine Meets.bind (item_directives fuel) fun ds => .given fun _ => ?_
  exact .pure fun _ h => ⟨⟨ht.isName_base, ha⟩, h⟩

theorem item_braced? {item : Parser α} (hi : Item (depth + 1) P item) :
    Item depth (fun as? => ∀ a ∈ as?.getD [], P a) (braced? item) := by
  refine Meets.bind (meets_optionalPunct .openBrace) fun found => ?_
  cases found with
  | true =>
    refine (meets_someUntil hi).map.mono (fun _ h => h) ?_
    rintro _ _ ⟨as, rfl, h⟩
    exact ⟨h.1.2, h.2⟩
  | false => exact .pure fun _ h => ⟨by simp, h⟩

theorem item_separated {sep : Punct} (neutral : (Token.punct sep).shift depth = depth)
    {item : Parser α} (hi : Item depth P item) :
    Item depth (fun _ => True) (separated sep item) := by
  have next : Item depth P (do punct sep; item) := by
    refine Meets.bind (meets_punct sep) fun _ => ?_
    rw [neutral]
    exact hi
  refine Meets.bind hi fun a => .given fun _ => ?_
  refine Meets.bind (item_manyWhile ((meets_nextIs sep).mono (fun _ h => h)
    fun _ _ ⟨_, h, _⟩ => h.1) next) fun as => .given fun _ => ?_
  exact .pure fun _ h => ⟨trivial, h⟩

theorem item_name : Item depth IsName name := meets_name

theorem item_implements : Item depth (fun _ => True) implements := by
  refine Meets.bind (meets_optionalWord "implements") fun found => ?_
  cases found with
  | true =>
    refine Meets.bind ((meets_optionalPunct .ampersand).mono (fun _ h => h.1) fun _ _ h => h)
      fun found => ?_
    exact (item_separated rfl item_name).mono
      (fun _ h => by cases found <;> exact h) fun _ _ h => h
  | false => exact .pure fun _ h => ⟨trivial, h.1⟩

theorem item_enumValue (fuel : Nat) : Item depth (fun _ => True) (enumValue fuel) := by
  refine Meets.bind item_description? fun _ => .given fun _ => ?_
  refine Meets.bind meets_name fun text => .given fun _ => ?_
  refine Meets.bind (item_directives fuel) fun _ => .given fun _ => ?_
  exact .pure fun _ h => ⟨trivial, h⟩

theorem item_unionMembers? : Item depth (fun _ => True) unionMembers? := by
  refine Meets.bind (meets_optionalPunct .equals) fun found => ?_
  cases found with
  | true =>
    refine Meets.bind (meets_optionalPunct .pipe) fun found => ?_
    refine (item_separated rfl item_name).map.mono (fun _ h => by cases found <;> exact h) ?_
    rintro _ _ ⟨as, rfl, h⟩
    exact ⟨trivial, h.2⟩
  | false => exact .pure fun _ h => ⟨trivial, h⟩

theorem item_typeBody (fuel : Nat) (keyword : String) :
    Item depth (fun r => r.1.Proper) (typeBody fuel keyword) := by
  unfold typeBody
  split
  · refine Meets.bind meets_name fun text => .given fun hn => ?_
    refine Meets.bind (item_directives fuel) fun ds => .given fun _ => ?_
    exact .pure fun _ h => ⟨⟨hn, by simp [TypeDefinition.types]⟩, h⟩
  · refine Meets.bind meets_name fun text => .given fun hn => ?_
    refine Meets.bind item_implements fun interfaces => .given fun _ => ?_
    refine Meets.bind (item_directives fuel) fun ds => .given fun _ => ?_
    refine Meets.bind (item_braced? (item_fieldDefinition fuel)) fun fields? => .given fun hf => ?_
    exact .pure fun _ h => ⟨⟨hn, forall_mem_types hf⟩, h⟩
  · refine Meets.bind meets_name fun text => .given fun hn => ?_
    refine Meets.bind item_implements fun _ => .given fun _ => ?_
    refine Meets.bind (item_directives fuel) fun ds => .given fun _ => ?_
    refine Meets.bind (item_braced? (item_fieldDefinition fuel)) fun fields? => .given fun hf => ?_
    exact .pure fun _ h => ⟨⟨hn, forall_mem_types hf⟩, h⟩
  · refine Meets.bind meets_name fun text => .given fun hn => ?_
    refine Meets.bind (item_directives fuel) fun ds => .given fun _ => ?_
    refine Meets.bind item_unionMembers? fun members? => .given fun _ => ?_
    exact .pure fun _ h => ⟨⟨hn, by simp [TypeDefinition.types]⟩, h⟩
  · refine Meets.bind meets_name fun text => .given fun hn => ?_
    refine Meets.bind (item_directives fuel) fun ds => .given fun _ => ?_
    refine Meets.bind (item_braced? (item_enumValue fuel)) fun values? => .given fun _ => ?_
    exact .pure fun _ h => ⟨⟨hn, by simp [TypeDefinition.types]⟩, h⟩
  · refine Meets.bind meets_name fun text => .given fun hn => ?_
    refine Meets.bind (item_directives fuel) fun ds => .given fun _ => ?_
    refine Meets.bind (item_braced? (item_inputValue fuel)) fun fields? => .given fun hf => ?_
    refine .pure fun _ h => ⟨⟨hn, fun e he => ?_⟩, h⟩
    obtain ⟨v, hv, rfl⟩ := List.mem_map.mp he
    exact hf v hv

theorem item_directiveLocation : Item depth (fun _ => True) directiveLocation := by
  refine Meets.bind meets_nextWord? fun found => ?_
  cases found with
  | none => exact meets_fail
  | some text =>
    dsimp only
    split
    · refine (meets_advance_word.mono (fun ts ⟨t, h, ht⟩ => ⟨t, h, (ht text).mp rfl⟩)
        fun _ _ h => h).bind fun _ => ?_
      exact .pure fun _ h => ⟨trivial, h.2⟩
    · exact meets_fail

theorem item_directiveDefinition (fuel : Nat) (about? : Option String) :
    Item depth (fun _ => True) (directiveDefinition fuel about?) := by
  refine Meets.bind (meets_punct .atSign) fun _ => ?_
  refine Meets.bind meets_name fun text => .given fun _ => ?_
  refine Meets.bind (item_argumentDefinitions fuel) fun args => .given fun _ => ?_
  refine Meets.bind (meets_optionalWord "repeatable") fun repeatable => ?_
  refine Meets.bind ((meets_word "on").mono (fun _ h => h.1) fun _ _ h => h) fun _ => ?_
  have peeked : Meets (Tidy depth) nextWord? fun _ => Tidy depth :=
    meets_nextWord?.mono (fun _ h => h) fun _ _ ⟨_, h, _⟩ => h.1
  refine Meets.bind (meets_optionalPunct .pipe) fun leading => ?_
  refine Meets.bind (peeked.mono (fun _ h => by cases leading <;> exact h) fun _ _ h => h)
    fun more => ?_
  cases leading || more.isSome with
  | true =>
    refine Meets.bind (item_separated rfl item_directiveLocation) fun _ => .given fun _ => ?_
    exact .pure fun _ h => ⟨trivial, h⟩
  | false => exact .pure fun _ h => ⟨trivial, h⟩

theorem item_schemaBlock (fuel : Nat) (position : Position) :
    Item depth (fun _ => True) (schemaBlock fuel position) := by
  refine Meets.bind (item_directives fuel) fun _ => .given fun _ => ?_
  refine Meets.bind (meets_punct .openBrace) fun _ => ?_
  refine Meets.bind (meets_manyUntil (item_named item_name)) fun pairs => .given fun _ => ?_
  split
  · exact .pure fun _ h => ⟨trivial, h⟩
  · rintro _ _ _ _ ⟨⟩

theorem item_extension (fuel : Nat) : Item depth TypeDefinition.Proper (extension fuel) := by
  refine Meets.bind meets_peek fun head => ?_
  split
  · next keyword ht =>
    split
    · refine Meets.bind (meets_advance ht) fun _ => ?_
      refine Meets.bind (item_typeBody fuel keyword) fun ⟨t, adds⟩ => .given fun ht => ?_
      cases adds with
      | true => exact .pure fun _ h => ⟨ht, h⟩
      | false => rintro _ _ _ _ ⟨⟩
    · exact meets_fail
  · exact meets_fail

theorem item_describedDefinition (fuel : Nat) (about? : Option String) :
    Item depth SchemaDefinition.Proper (describedDefinition fuel about?) := by
  refine Meets.bind meets_nextWord? fun found => ?_
  have pass : ∀ keyword, Meets (fun ts => ∃ t, Sees depth t ts ∧
      ∀ text, some keyword = some text ↔ t.token = .name text) advance fun _ => Tidy depth :=
    fun keyword => meets_advance_word.mono
      (fun ts ⟨t, h, ht⟩ => ⟨t, h, (ht keyword).mp rfl⟩) fun _ _ h => h.2
  cases found with
  | none => exact meets_fail
  | some keyword =>
    dsimp only
    split
    · refine Meets.bind (pass keyword) fun _ => ?_
      refine Meets.bind (item_typeBody fuel keyword) fun r => .given fun hr => ?_
      exact .pure fun _ h => ⟨fun t ht => Option.some.inj ht ▸ hr, h⟩
    · split
      · refine Meets.bind (pass keyword) fun _ => ?_
        refine Meets.bind (item_directiveDefinition fuel about?) fun _ => .given fun _ => ?_
        exact .pure fun _ h => ⟨nofun, h⟩
      · exact meets_fail

theorem item_schemaDefinition (fuel : Nat) :
    Item depth SchemaDefinition.Proper (schemaDefinition fuel) := by
  refine Meets.bind meets_peek fun t => ?_
  refine Meets.bind (meets_optionalWord "schema").unseen fun found => ?_
  cases found with
  | true =>
    refine Meets.bind ((item_schemaBlock fuel t.position).mono (fun _ h => h.1) fun _ _ h => h)
      fun _ => .given fun _ => ?_
    exact .pure fun _ h => ⟨nofun, h⟩
  | false =>
    refine Meets.bind ((meets_optionalWord "extend").mono (fun _ h => h.1) fun _ _ h => h)
      fun found => ?_
    cases found with
    | true =>
      refine Meets.bind ((item_extension fuel).mono (fun _ h => h.1) fun _ _ h => h)
        fun d => .given fun hd => ?_
      exact .pure fun _ h => ⟨fun t ht => Option.some.inj ht ▸ hd, h⟩
    | false =>
      refine Meets.bind (item_description?.mono (fun _ h => h.1) fun _ _ h => h)
        fun about? => .given fun _ => ?_
      exact item_describedDefinition fuel about?

end

theorem proper_of_parseSchema {text : String} {ds : List SchemaDefinition}
    (h : parseSchema text = .ok ds) : ∀ d ∈ ds, d.Proper := by
  rw [parseSchema, parseWith] at h
  split at h
  · next ds' rest hp =>
    cases h
    exact meets_definitionsUntilEnd (item_schemaDefinition _) _ _ _ (tidy_tokens _) hp
  · cases h

end GraphDoc.Grammar
