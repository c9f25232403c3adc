import GraphDoc.Proofs.Grammar.TypeSystem
import GraphDoc.Proofs.Spelling

/-!
# Schemas that refer to what they define

A schema is loaded exactly if every type that its definitions refer to is defined. Where a field or
an argument is declared more than once, the last declaration counts. `Declared` collects what
definitions declare, in order, and `Declares` says that the tables of a schema show it.
-/

set_option autoImplicit false

namespace GraphDoc

open Grammar

/-! ## Declarations -/

/-- What definitions declare, in order. A field is given by its id, with the names of its owner and
its type, and an argument by its id, with the name of its type. Members are paired with their
abstract types and values with their enums. -/
structure Declared where
  fields : List (String × String × String) := []
  arguments : List (String × String) := []
  members : List (String × String) := []
  values : List (String × String) := []

namespace Declared

def append (d e : Declared) : Declared :=
  ⟨d.fields ++ e.fields, d.arguments ++ e.arguments, d.members ++ e.members, d.values ++ e.values⟩

instance : Append Declared := ⟨append⟩

@[simp] theorem fields_append (d e : Declared) : (d ++ e).fields = d.fields ++ e.fields := rfl

@[simp] theorem arguments_append (d e : Declared) :
    (d ++ e).arguments = d.arguments ++ e.arguments := rfl

@[simp] theorem members_append (d e : Declared) : (d ++ e).members = d.members ++ e.members := rfl

@[simp] theorem values_append (d e : Declared) : (d ++ e).values = d.values ++ e.values := rfl

theorem append_nil (d : Declared) : d ++ ({} : Declared) = d := by
  show append d {} = d
  simp only [append, List.append_nil]

theorem append_assoc (d e f : Declared) : d ++ e ++ f = d ++ (e ++ f) := by
  show append (append d e) f = append d (append e f)
  simp only [append, List.append_assoc]

def concat : List Declared → Declared
  | [] => {}
  | d :: ds => d ++ concat ds

def ofArgument (field : String) (a : InputValue) : Declared :=
  { arguments := [(Schema.idOf field a.name, a.type.base)] }

def ofField (owner : String) (f : FieldDefinition) : Declared :=
  ({ fields := [(Schema.idOf owner f.name, owner, f.type.base)] } : Declared) ++
    concat (f.arguments.map (ofArgument (Schema.idOf owner f.name)))

def ofInputField (owner : String) (f : InputValue) : Declared :=
  { fields := [(Schema.idOf owner f.name, owner, f.type.base)] }

/-- What a definition or an extension of a type declares. -/
def ofBody : TypeDefinition → Declared
  | .scalar _ => {}
  | .object name interfaces fields =>
    concat (fields.map (ofField name)) ++
      concat (interfaces.map fun i => { members := [(i, name)] })
  | .interface name fields => concat (fields.map (ofField name))
  | .union name members => concat (members.map fun m => { members := [(name, m)] })
  | .enum name values => concat (values.map fun v => { values := [(name, v)] })
  | .input name fields => concat (fields.map (ofInputField name))

def ofDefinition (d : SchemaDefinition) : Declared :=
  match d.body? with
  | some t => ofBody t
  | none => {}

def ofDefinitions (ds : List SchemaDefinition) : Declared := concat (ds.map ofDefinition)

theorem concat_append (ds es : List Declared) : concat (ds ++ es) = concat ds ++ concat es := by
  induction ds with
  | nil =>
    show concat es = append {} (concat es)
    simp only [append, List.nil_append]
  | cons d ds ih => rw [List.cons_append, concat, concat, ih, append_assoc]

end Declared

/-- The last of the declarations of an id. -/
def last? {β : Type} (declared : List (String × β)) (id : String) : Option β :=
  declared.reverse.lookup id

theorem last?_append {β : Type} (declared : List (String × β)) (id other : String) (b : β) :
    last? (declared ++ [(id, b)]) other = if other = id then some b else last? declared other := by
  rw [last?, List.reverse_append, List.reverse_singleton, List.singleton_append,
    Keyed.lookup_cons_ite, last?]

/-- All types that are referred to are known: the owner and the type of a field and the type of an
argument, by the last declaration of their ids, both sides of a membership, and the enum of a
value. -/
structure Declared.Refers (known : String → Prop) (d : Declared) : Prop where
  fields : ∀ id owner type, last? d.fields id = some (owner, type) → known owner ∧ known type
  arguments : ∀ id type, last? d.arguments id = some type → known type
  members : ∀ m ∈ d.members, known m.1 ∧ known m.2
  values : ∀ v ∈ d.values, known v.1

/-! ## Tables that show declarations -/

section

variable {α β κ : Type} {fine : β → Prop} {view : α → β} {declared : List (String × β)}
  {t : Keyed String α}

/-- The rows of a table are fine or the last declarations of their keys, and no such declaration is
missing. -/
structure Shows (fine : β → Prop) (view : α → β) (declared : List (String × β))
    (t : Keyed String α) : Prop where
  sound : ∀ row ∈ t.rows, fine (view row.2) ∨ last? declared row.1 = some (view row.2)
  complete : ∀ id b, last? declared id = some b → ∃ row ∈ t.rows, row.1 = id ∧ view row.2 = b

theorem Shows.put (h : Shows fine view declared t) (id : String) (a : α) :
    Shows fine view (declared ++ [(id, view a)]) (t.put id a) := by
  constructor
  · intro row hr
    rw [last?_append]
    rcases Keyed.mem_rows_put hr with ⟨hr, hne⟩ | rfl
    · rw [if_neg hne]
      exact h.sound row hr
    · exact .inr (if_pos rfl)
  · intro other b hb
    rw [last?_append] at hb
    split at hb
    · next he =>
      exact ⟨(id, a), Keyed.mem_rows_put_self .., he.symm, Option.some.inj hb⟩
    · next hne =>
      obtain ⟨row, hr, rfl, hview⟩ := h.complete other b hb
      exact ⟨row, Keyed.mem_rows_put_of_ne hr hne, rfl, hview⟩

theorem Shows.add (h : Shows fine view declared t) (id : String) {a : α} (ha : fine (view a)) :
    Shows fine view declared (t.add id a) := by
  constructor
  · intro row hr
    rcases Keyed.mem_rows_add hr with hr | rfl
    · exact h.sound row hr
    · exact .inl ha
  · intro other b hb
    obtain ⟨row, hr, hrow⟩ := h.complete other b hb
    exact ⟨row, Keyed.mem_rows_add_of_mem hr, hrow⟩

/-- The keys of a table are fine or declared, and no declared one is missing. -/
structure Gathers [DecidableEq κ] (fine : κ → Prop) (declared : List κ) (t : Keyed κ Unit) :
    Prop where
  sound : ∀ row ∈ t.rows, fine row.1 ∨ row.1 ∈ declared
  complete : ∀ key ∈ declared, ∃ row ∈ t.rows, row.1 = key

theorem Gathers.add [DecidableEq κ] {fine : κ → Prop} {declared : List κ} {t : Keyed κ Unit}
    (h : Gathers fine declared t) (key : κ) : Gathers fine (declared ++ [key]) (t.add key ()) := by
  constructor
  · intro row hr
    rcases Keyed.mem_rows_add hr with hr | rfl
    · exact (h.sound row hr).imp_right (List.mem_append_left _)
    · exact .inr (List.mem_append_right _ List.mem_cons_self)
  · intro other ho
    rcases List.mem_append.mp ho with ho | ho
    · obtain ⟨row, hr, hrow⟩ := h.complete other ho
      exact ⟨row, Keyed.mem_rows_add_of_mem hr, hrow⟩
    · rw [List.mem_singleton.mp ho]
      exact Keyed.exists_mem_rows_add t key ()

end

namespace Schema

/-! ## Loading declares -/

/-- The tables show what is declared, next to rows that refer to known types only. -/
structure Declares (known : String → Prop) (d : Declared) (s : Schema) : Prop where
  fields : Shows (fun r => known r.1 ∧ known r.2) (fun f : FieldRow => (f.parent, f.type.name))
    d.fields s.fields
  arguments : Shows known (fun a : ArgumentRow => a.type.name) d.arguments s.arguments
  members : Gathers (fun m => known m.1 ∧ known m.2) d.members s.members
  values : Gathers (fun v => known v.1) d.values s.enumValues

section

variable {known : String → Prop} {d : Declared} {s : Schema} {internal : Bool}

theorem Declares.foldl {α : Type} {f : Schema → α → Schema} {g : α → Declared} (as : List α)
    (step : ∀ d s, ∀ a ∈ as, Declares known d s → Declares known (d ++ g a) (f s a))
    (h : Declares known d s) : Declares known (d ++ .concat (as.map g)) (as.foldl f s) := by
  induction as generalizing d s with
  | nil => rwa [List.map_nil, Declared.concat, Declared.append_nil]
  | cons a as ih =>
    rw [List.map_cons, Declared.concat, ← Declared.append_assoc]
    exact ih (fun d s b hb => step d s b (List.mem_cons_of_mem a hb))
      (step d s a List.mem_cons_self h)

theorem Declares.putField (h : Declares known d s) (id : String) (row : FieldRow) :
    Declares known (d ++ ({ fields := [(id, row.parent, row.type.name)] } : Declared))
      { s with fields := s.fields.put id row } := by
  refine ⟨h.fields.put id row, ?_, ?_, ?_⟩
  · simpa using h.arguments
  · simpa using h.members
  · simpa using h.values

theorem Declares.addArgument (h : Declares known d s) (field : String) {a : InputValue}
    (proper : a.Proper) :
    Declares known (d ++ .ofArgument field a) (addArgument field s a) := by
  rw [Schema.addArgument]
  refine ⟨?_, ?_, ?_, ?_⟩
  · simpa [Declared.ofArgument] using h.fields
  · have put := h.arguments.put (idOf field a.name) ⟨field, a.name, .ofExpr a.type⟩
    rwa [TypeRef.name_ofExpr proper] at put
  · simpa [Declared.ofArgument] using h.members
  · simpa [Declared.ofArgument] using h.values

theorem Declares.addField (h : Declares known d s) (owner : String) {f : FieldDefinition}
    (proper : f.Proper) :
    Declares known (d ++ .ofField owner f) (addField internal owner s f) := by
  have put := h.putField (idOf owner f.name)
    ⟨owner, f.name, .ofExpr f.type, none, f.description?, internal⟩
  rw [Declared.ofField, ← Declared.append_assoc]
  rw [TypeRef.name_ofExpr proper.type] at put
  exact put.foldl f.arguments fun _ _ a ha h => h.addArgument _ (proper.arguments a ha)

theorem Declares.addInputField (h : Declares known d s) (owner : String) {f : InputValue}
    (proper : f.Proper) :
    Declares known (d ++ .ofInputField owner f) (addInputField internal owner s f) := by
  have put := h.putField (idOf owner f.name)
    ⟨owner, f.name, .ofExpr f.type, defaultText f, f.description?, internal⟩
  rwa [TypeRef.name_ofExpr proper] at put

theorem Declares.addMember (h : Declares known d s) (abstract member : String) :
    Declares known (d ++ ({ members := [(abstract, member)] } : Declared))
      (addMember abstract member s) := by
  rw [Schema.addMember]
  refine ⟨?_, ?_, h.members.add (abstract, member), ?_⟩
  · simpa using h.fields
  · simpa using h.arguments
  · simpa using h.values

theorem Declares.addEnumValue (h : Declares known d s) (parent value : String) :
    Declares known (d ++ ({ values := [(parent, value)] } : Declared))
      (addEnumValue parent s value) := by
  rw [Schema.addEnumValue]
  refine ⟨?_, ?_, ?_, h.values.add (parent, value)⟩
  · simpa using h.fields
  · simpa using h.arguments
  · simpa using h.members

theorem proper_of_mem_fields {fields : List FieldDefinition}
    (h : ∀ e ∈ fields.flatMap fun f => f.type :: f.arguments.map (·.type), IsName e.base) :
    ∀ f ∈ fields, f.Proper := by
  intro f hf
  have types := fun e he => h e (List.mem_flatMap.mpr ⟨f, hf, he⟩)
  refine ⟨types _ List.mem_cons_self, fun a ha => ?_⟩
  exact types _ (List.mem_cons_of_mem _ (List.mem_map_of_mem ha))

theorem Declares.addParts (h : Declares known d s) {t : TypeDefinition} (proper : t.Proper) :
    Declares known (d ++ .ofBody t) (addParts internal t s) := by
  cases t with
  | scalar name => rwa [Declared.ofBody, Declared.append_nil]
  | object name interfaces fields =>
    rw [Declared.ofBody, ← Declared.append_assoc]
    have added : Declares known (d ++ .concat (fields.map (.ofField name)))
        (fields.foldl (Schema.addField internal name) s) :=
      h.foldl fields fun _ _ f hf h => h.addField name (proper_of_mem_fields proper.types f hf)
    exact added.foldl interfaces fun _ _ i _ h => h.addMember i name
  | interface name fields =>
    exact h.foldl fields fun _ _ f hf h => h.addField name (proper_of_mem_fields proper.types f hf)
  | union name members => exact h.foldl members fun _ _ m _ h => h.addMember name m
  | enum name values => exact h.foldl values fun _ _ v _ h => h.addEnumValue name v
  | input name fields =>
    exact h.foldl fields fun _ _ f hf h =>
      h.addInputField name (proper.types _ (List.mem_map_of_mem hf))

theorem Declares.addDirective (h : Declares known d s) (x : DirectiveDefinition) :
    Declares known d (addDirective internal x s) := by
  have keeps : ∀ {α : Type} (f : Schema → α → Schema) (as : List α),
      (∀ s a, Declares known d s → Declares known d (f s a)) → ∀ s, Declares known d s →
      Declares known d (as.foldl f s) := by
    intro α f as hf
    induction as with
    | nil => exact fun s h => h
    | cons a as ih => exact fun s h => ih _ (hf s a h)
  refine keeps _ _ (fun s a h => ?_) _ (keeps _ _ (fun s a h => ?_) _ ?_)
  · exact ⟨h.fields, h.arguments, h.members, h.values⟩
  · exact ⟨h.fields, h.arguments, h.members, h.values⟩
  · exact ⟨h.fields, h.arguments, h.members, h.values⟩

theorem Declares.addDefinition (h : Declares known d s) {x : SchemaDefinition}
    (proper : x.Proper) :
    Declares known (d ++ .ofDefinition x) (addDefinition internal s x) := by
  cases x with
  | roots r =>
    show Declares known (d ++ ({} : Declared)) s
    rwa [Declared.append_nil]
  | type t =>
    have added : Declares known d (addType internal (defined t).1 (defined t).2 s) :=
      ⟨h.fields, h.arguments, h.members, h.values⟩
    exact added.addParts (proper t rfl)
  | extension t => exact h.addParts (proper t rfl)
  | directive x =>
    show Declares known (d ++ ({} : Declared)) _
    rw [Declared.append_nil]
    exact h.addDirective x

theorem Declares.addDefinitions (h : Declares known d s) {ds : List SchemaDefinition}
    (proper : ∀ x ∈ ds, x.Proper) :
    Declares known (d ++ .ofDefinitions ds) (addDefinitions internal ds s) :=
  h.foldl ds fun _ _ x hx h => h.addDefinition (proper x hx)

theorem Declares.addTypenames (h : Declares known d s) (string : known "String")
    (types : ∀ t ∈ s.types.rows, known t.1) : Declares known d (addTypenames s) := by
  have keeps : ∀ (ts : List (String × TypeRow)) (s : Schema), (∀ t ∈ ts, known t.1) →
      Declares known d s → Declares known d (ts.foldl addTypename s) := by
    intro ts
    induction ts with
    | nil => exact fun s _ h => h
    | cons t ts ih =>
      intro s known' h
      refine ih _ (fun u hu => known' u (List.mem_cons_of_mem t hu)) ?_
      rw [addTypename]
      split
      · exact ⟨h.fields.add _ ⟨known' t List.mem_cons_self, string⟩, h.arguments, h.members,
          h.values⟩
      · exact h
  exact keeps s.types.rows s types h

/-! ## Anchors -/

/-- Arguments have fields, and locations and arguments of directives have directives. -/
structure Anchored (s : Schema) : Prop where
  arguments : ∀ a ∈ s.arguments.rows, s.fields.contains a.2.field = true
  locations : ∀ l ∈ s.directiveLocations.rows, s.directives.contains l.1.1 = true
  directiveArguments : ∀ a ∈ s.directiveArguments.rows, s.directives.contains a.1.1 = true

theorem Anchored.putField (h : Anchored s) (id : String) (row : FieldRow) :
    Anchored { s with fields := s.fields.put id row } :=
  ⟨fun a ha => Keyed.contains_put_of_contains id row (h.arguments a ha), h.locations,
    h.directiveArguments⟩

theorem Anchored.addField (h : Anchored s) (owner : String) (f : FieldDefinition) :
    Anchored (addField internal owner s f) := by
  let row : FieldRow := ⟨owner, f.name, .ofExpr f.type, none, f.description?, internal⟩
  -- The field is there before its arguments come.
  have step : ∀ (as : List InputValue) (s : Schema), Anchored s →
      s.fields.contains (idOf owner f.name) →
      Anchored (as.foldl (addArgument (idOf owner f.name)) s) := by
    intro as
    induction as with
    | nil => exact fun s h _ => h
    | cons a as ih =>
      intro s h there
      refine ih _ ⟨fun b hb => ?_, h.locations, h.directiveArguments⟩ there
      rcases Keyed.mem_rows_put hb with ⟨hb, _⟩ | rfl
      · exact h.arguments b hb
      · exact there
  exact step f.arguments _ (h.putField (idOf owner f.name) row) (Keyed.contains_put_self ..)

theorem Anchored.foldl {α : Type} {f : Schema → α → Schema}
    (step : ∀ s a, Anchored s → Anchored (f s a)) (as : List α) (h : Anchored s) :
    Anchored (as.foldl f s) := by
  induction as generalizing s with
  | nil => exact h
  | cons a as ih => exact ih (step s a h)

theorem Anchored.addParts (h : Anchored s) (t : TypeDefinition) :
    Anchored (addParts internal t s) := by
  cases t with
  | scalar name => exact h
  | object name interfaces fields =>
    exact (h.foldl (fun _ f h => h.addField name f) fields).foldl
      (f := fun s i => Schema.addMember i name s)
      (fun _ _ h => ⟨h.arguments, h.locations, h.directiveArguments⟩) interfaces
  | interface name fields => exact h.foldl (fun _ f h => h.addField name f) fields
  | union name members =>
    exact h.foldl (f := fun s m => Schema.addMember name m s)
      (fun _ _ h => ⟨h.arguments, h.locations, h.directiveArguments⟩) members
  | enum name values =>
    exact h.foldl (f := Schema.addEnumValue name)
      (fun _ _ h => ⟨h.arguments, h.locations, h.directiveArguments⟩) values
  | input name fields => exact h.foldl (fun _ _ h => h.putField ..) fields

theorem Anchored.addDirective (h : Anchored s) (x : DirectiveDefinition) :
    Anchored (addDirective internal x s) := by
  let row : DirectiveRow := ⟨x.repeatable, internal, true, x.description?.map Text.trim⟩
  have put : Anchored { s with directives := s.directives.put x.name row } :=
    ⟨h.arguments, fun l hl => Keyed.contains_put_of_contains _ _ (h.locations l hl),
      fun a ha => Keyed.contains_put_of_contains _ _ (h.directiveArguments a ha)⟩
  have step : ∀ {α : Type} (f : Schema → α → Schema) (as : List α),
      (∀ s a, Anchored s ∧ s.directives.contains x.name →
        Anchored (f s a) ∧ (f s a).directives.contains x.name) →
      ∀ s, Anchored s ∧ s.directives.contains x.name →
        Anchored (as.foldl f s) ∧ (as.foldl f s).directives.contains x.name := by
    intro α f as hf
    induction as with
    | nil => exact fun s h => h
    | cons a as ih => exact fun s h => ih _ (hf s a h)
  refine (step _ x.arguments ?_ _ (step _ x.locations ?_ _ ⟨put, Keyed.contains_put_self ..⟩)).1
  · rintro s a ⟨h, there⟩
    refine ⟨⟨h.arguments, h.locations, fun b hb => ?_⟩, there⟩
    rcases Keyed.mem_rows_put hb with ⟨hb, _⟩ | rfl
    · exact h.directiveArguments b hb
    · exact there
  · rintro s l ⟨h, there⟩
    refine ⟨⟨h.arguments, fun b hb => ?_, h.directiveArguments⟩, there⟩
    rcases Keyed.mem_rows_add hb with hb | rfl
    · exact h.locations b hb
    · exact there

theorem Anchored.addDefinitions (h : Anchored s) (ds : List SchemaDefinition) :
    Anchored (addDefinitions internal ds s) := by
  refine h.foldl (fun s x h => ?_) ds
  cases x with
  | roots r => exact h
  | type t =>
    have added : Anchored (addType internal (defined t).1 (defined t).2 s) :=
      ⟨h.arguments, h.locations, h.directiveArguments⟩
    exact added.addParts t
  | extension t => exact h.addParts t
  | directive x => exact h.addDirective x

theorem Anchored.addTypenames (h : Anchored s) : Anchored (addTypenames s) := by
  refine h.foldl (fun s t h => ?_) s.types.rows
  rw [addTypename]
  split
  · refine ⟨fun a ha => ?_, h.locations, h.directiveArguments⟩
    rw [Keyed.contains_add, h.arguments a ha, Bool.or_true]
  · exact h

end

/-! ## The whole schema -/

set_option maxRecDepth 100000 in
theorem body?_builtInChars : (definitionsOfChars spelling.builtIn).all (·.body?.isNone) := by
  decide +kernel

theorem body?_builtInDefinitions : ∀ x ∈ builtInDefinitions, x.body? = none := by
  have eq : builtInDefinitions = definitionsOfChars spelling.builtIn :=
    (congrArg definitionsOf spelling.builtIn_eq).trans (definitionsOf_ofList _)
  intro x hx
  rw [eq] at hx
  exact Option.isNone_iff_eq_none.mp (List.all_eq_true.mp body?_builtInChars x hx)

theorem definedTypes_eq_nil {ds : List SchemaDefinition} (h : ∀ x ∈ ds, x.body? = none) :
    definedTypes ds = [] := by
  refine List.filterMap_eq_nil_iff.mpr fun x hx => ?_
  have := h x hx
  cases x with
  | type t => cases this
  | _ => rfl

theorem ofDefinitions_eq_empty {ds : List SchemaDefinition} (h : ∀ x ∈ ds, x.body? = none) :
    Declared.ofDefinitions ds = {} := by
  induction ds with
  | nil => rfl
  | cons x ds ih =>
    have rest := ih fun y hy => h y (List.mem_cons_of_mem x hy)
    rw [Declared.ofDefinitions, List.map_cons, Declared.concat, ← Declared.ofDefinitions, rest,
      Declared.append_nil, Declared.ofDefinition, h x List.mem_cons_self]

theorem proper_definitionsOf (text : String) : ∀ x ∈ definitionsOf text, x.Proper := by
  unfold definitionsOf
  split
  · next parsed => exact proper_of_parseSchema parsed
  · simp

theorem proper_builtInDefinitions : ∀ x ∈ builtInDefinitions, x.Proper := proper_definitionsOf _

theorem proper_internalDefinitions : ∀ x ∈ internalDefinitions, x.Proper := proper_definitionsOf _

/-- A type is known if it was there before, if it is a built-in scalar, if the text defines it, or
if the framework does. -/
def Known (s : Schema) (ds : List SchemaDefinition) (name : String) : Prop :=
  s.types.contains name = true ∨ name ∈ Framework.builtInScalars ∨ name ∈ definedTypes ds ∨
    name ∈ definedTypes internalDefinitions

theorem contains_types_addBuiltIns {name : String} (s : Schema) :
    (addBuiltIns s).types.contains name ↔
      s.types.contains name ∨ name ∈ Framework.builtInScalars := by
  rw [addBuiltIns, contains_types_addDefinitions, definedTypes_eq_nil body?_builtInDefinitions]
  simp only [List.not_mem_nil, or_false]
  generalize Framework.builtInScalars = names
  induction names generalizing s with
  | nil => simp
  | cons n names ih =>
    rw [List.foldl_cons, ih, addBuiltInScalar, Keyed.contains_add, List.mem_cons, Bool.or_eq_true,
      decide_eq_true_eq, or_comm (a := name = n), or_assoc]

theorem contains_types_markRoot {name : String} (s : Schema) (root : DocumentKind × String) :
    (markRoot s root).types.contains name = s.types.contains name := by
  rw [markRoot, Keyed.contains_eq, Keyed.get?_modify, Keyed.contains_eq]
  split
  · rw [Option.isSome_map]
  · rfl

theorem contains_types_addProject {name : String} (ds : List SchemaDefinition) (s : Schema) :
    (addProject ds s).types.contains name ↔ s.types.contains name ∨
      name ∈ Framework.builtInScalars ∨ name ∈ definedTypes ds := by
  have marked : ∀ (roots : List (DocumentKind × String)) (s : Schema),
      (roots.foldl markRoot s).types.contains name = s.types.contains name := by
    intro roots
    induction roots with
    | nil => exact fun s => rfl
    | cons root roots ih => exact fun s => (ih _).trans (contains_types_markRoot s root)
  rw [addProject, types_addTypenames, marked, contains_types_addDefinitions,
    contains_types_addBuiltIns, or_assoc]

theorem contains_types_addAll {name : String} (ds : List SchemaDefinition) (s : Schema) :
    (addAll ds s).types.contains name ↔ Known s ds name := by
  rw [addAll, contains_types_addInternal, contains_types_addProject, Known, or_assoc, or_assoc]

theorem contains_of_mem_rows {κ α : Type} [DecidableEq κ] {t : Keyed κ α} {row : κ × α}
    (h : row ∈ t.rows) : t.contains row.1 :=
  List.any_eq_true.mpr ⟨row, h, decide_eq_true rfl⟩

theorem declares_addAll {s : Schema} (closed : s.closed) {ds : List SchemaDefinition}
    (proper : ∀ x ∈ ds, x.Proper) :
    Declares (Known s ds) (.ofDefinitions (ds ++ internalDefinitions)) (addAll ds s) := by
  obtain ⟨fields, arguments, members, values, _⟩ := (closed_iff s).mp closed
  have string : Known s ds "String" := .inr (.inl (by decide))
  have start : Declares (Known s ds) {} s := by
    refine ⟨⟨fun f hf => .inl ?_, nofun⟩, ⟨fun a ha => .inl (.inl (arguments a ha).2), nofun⟩,
      ⟨fun m hm => .inl ?_, nofun⟩, ⟨fun v hv => .inl (.inl (values v hv)), nofun⟩⟩
    · exact ⟨.inl (fields f hf).1, .inl (fields f hf).2⟩
    · exact ⟨.inl (members m hm).1, .inl (members m hm).2⟩
  have builtIn : Declares (Known s ds) {} (addBuiltIns s) := by
    have scalars : Declares (Known s ds) {} (Framework.builtInScalars.foldl addBuiltInScalar s) :=
      List.foldlRecOn _ _ start fun _ h _ _ => ⟨h.fields, h.arguments, h.members, h.values⟩
    have added : Declares (Known s ds) (({} : Declared) ++ .ofDefinitions builtInDefinitions)
        (addBuiltIns s) := scalars.addDefinitions proper_builtInDefinitions
    rwa [ofDefinitions_eq_empty body?_builtInDefinitions, Declared.append_nil] at added
  have project : Declares (Known s ds) (.ofDefinitions ds) (addProject ds s) := by
    have added : Declares (Known s ds) (({} : Declared) ++ .ofDefinitions ds)
        (addDefinitions false ds (addBuiltIns s)) := builtIn.addDefinitions proper
    have marked : Declares (Known s ds) (.ofDefinitions ds)
        ((rootNames ds).foldl markRoot (addDefinitions false ds (addBuiltIns s))) :=
      List.foldlRecOn _ _ added fun _ h _ _ => ⟨h.fields, h.arguments, h.members, h.values⟩
    refine marked.addTypenames string fun t ht => ?_
    rw [← types_addTypenames] at ht
    have there := (contains_types_addProject ds s).mp (contains_of_mem_rows ht)
    exact there.imp_right fun h => h.imp_right .inl
  have added : Declares (Known s ds) (.ofDefinitions ds ++ .ofDefinitions internalDefinitions)
      (addDefinitions true internalDefinitions (addProject ds s)) :=
    project.addDefinitions proper_internalDefinitions
  have hidden : Declares (Known s ds)
      (.ofDefinitions ds ++ .ofDefinitions internalDefinitions)
      (hiddenDirectives.foldl hideDirective
        (addDefinitions true internalDefinitions (addProject ds s))) :=
    List.foldlRecOn _ _ added fun _ h _ _ => ⟨h.fields, h.arguments, h.members, h.values⟩
  rw [Declared.ofDefinitions, List.map_append, Declared.concat_append]
  have known : ∀ name, (addInternal (addProject ds s)).types.contains name →
      Known s ds name := fun name => (contains_types_addAll ds s).mp
  refine hidden.addTypenames string fun t ht => known t.1 ?_
  rw [addInternal, types_addTypenames]
  exact contains_of_mem_rows ht

theorem anchored_addAll {s : Schema} (closed : s.closed) (ds : List SchemaDefinition) :
    Anchored (addAll ds s) := by
  obtain ⟨_, arguments, _, _, locations, directiveArguments⟩ := (closed_iff s).mp closed
  have start : Anchored s := ⟨fun a ha => (arguments a ha).1, locations, directiveArguments⟩
  have scalars : Anchored (Framework.builtInScalars.foldl addBuiltInScalar s) :=
    start.foldl (f := addBuiltInScalar)
      (fun _ _ h => ⟨h.arguments, h.locations, h.directiveArguments⟩) _
  have builtIn : Anchored (addBuiltIns s) := scalars.addDefinitions builtInDefinitions
  have marked :
      Anchored ((rootNames ds).foldl markRoot (addDefinitions false ds (addBuiltIns s))) :=
    (builtIn.addDefinitions ds).foldl (f := markRoot)
      (fun _ _ h => ⟨h.arguments, h.locations, h.directiveArguments⟩) _
  have project : Anchored (addProject ds s) := marked.addTypenames
  have added : Anchored (addDefinitions true internalDefinitions (addProject ds s)) :=
    project.addDefinitions internalDefinitions
  have hides : ∀ (s : Schema) (name : String), Anchored s → Anchored (hideDirective s name) := by
    intro s name h
    have kept : ∀ {other : String}, s.directives.contains other →
        (hideDirective s name).directives.contains other := by
      intro other there
      rw [hideDirective, Keyed.contains_eq, Keyed.get?_modify]
      rw [Keyed.contains_eq] at there
      split
      · rwa [Option.isSome_map]
      · exact there
    exact ⟨h.arguments, fun l hl => kept (h.locations l hl),
      fun a ha => kept (h.directiveArguments a ha)⟩
  exact (added.foldl hides hiddenDirectives).addTypenames

/-- A schema is closed after loading exactly if all that is declared refers to known types. -/
theorem closed_addAll_iff {s : Schema} (closed : s.closed) {ds : List SchemaDefinition}
    (proper : ∀ x ∈ ds, x.Proper) : (addAll ds s).closed ↔
      (Declared.ofDefinitions (ds ++ internalDefinitions)).Refers (Known s ds) := by
  have shown := declares_addAll closed proper
  have anchored := anchored_addAll closed ds
  simp only [closed_iff, contains_types_addAll]
  constructor
  · rintro ⟨fields, arguments, members, values, _⟩
    refine ⟨fun id owner type h => ?_, fun id type h => ?_, fun m hm => ?_, fun v hv => ?_⟩
    · obtain ⟨row, hr, _, hview⟩ := shown.fields.complete id _ h
      obtain ⟨rfl, rfl⟩ := Prod.mk.inj hview
      exact fields row hr
    · obtain ⟨row, hr, _, rfl⟩ := shown.arguments.complete id _ h
      exact (arguments row hr).2
    · obtain ⟨row, hr, rfl⟩ := shown.members.complete m hm
      exact members row hr
    · obtain ⟨row, hr, rfl⟩ := shown.values.complete v hv
      exact values row hr
  · intro refers
    refine ⟨fun f hf => ?_, fun a ha => ⟨anchored.arguments a ha, ?_⟩, fun m hm => ?_,
      fun v hv => ?_, anchored.locations, anchored.directiveArguments⟩
    · exact (shown.fields.sound f hf).elim id (refers.fields f.1 _ _)
    · exact (shown.arguments.sound a ha).elim id (refers.arguments a.1 _)
    · exact (shown.members.sound m hm).elim id (refers.members m.1)
    · exact (shown.values.sound v hv).elim id (refers.values v.1)

end Schema

namespace Store

/-- Only the schema may be open after a schema was added. -/
theorem closed_withSchema {s : Store} (closed : s.closed) (schema : Schema) :
    ({ s with schema := schema } : Store).closed = schema.closed := by
  simp only [closed_eq, closedUnder, Bool.and_assoc] at closed ⊢
  rw [Bool.and_eq_true] at closed
  rw [closed.2, Bool.and_true]

/-- A schema is loaded exactly if the types that it refers to are known: those that were there, the
built-in scalars, the types that the text defines, and those of the framework. A schema that is not
loaded leaves nothing behind. -/
theorem loadSchema_commits_iff {s : Store} (closed : s.closed = true) {text : String}
    {ds : List SchemaDefinition} (parsed : parseSchema text = .ok ds) :
    ((s.loadSchema text).2 = .ok () ↔
      (Declared.ofDefinitions (ds ++ Schema.internalDefinitions)).Refers
        (Schema.Known s.schema ds)) ∧
    ((s.loadSchema text).2 = .ok () →
      (s.loadSchema text).1 = { s with schema := s.schema.addAll ds }) ∧
    ∀ f, (s.loadSchema text).2 = .error f → f = .dangling ∧ (s.loadSchema text).1 = s := by
  have schemaClosed : s.schema.closed = true := ((closed_iff s).mp closed).schema
  have iff := Schema.closed_addAll_iff schemaClosed (proper_of_parseSchema parsed)
  rw [← iff, ← closed_withSchema closed, loadSchema, parsed, commit]
  split
  · next ok => exact ⟨⟨fun _ => ok, fun _ => rfl⟩, fun _ => rfl, by simp⟩
  · next failed =>
    refine ⟨⟨by simp, fun ok => absurd ok failed⟩, by simp, fun f hf => ?_⟩
    exact ⟨(Except.error.inj hf).symm, rfl⟩

/-- A text in which a type is extended before it is defined, and a field is declared again. -/
def profiles : String := "type Query \x7b user: Missing \x7d
  extend type User \x7b role(of: ID): Role \x7d extend type Query \x7b user: User \x7d
  type User implements Node \x7b id: ID \x7d interface Node \x7b id: ID \x7d
  enum Role \x7b ADMIN \x7d"

/-- A text that refers to a type that it does not define. -/
def strangers : String := "type Query \x7b user(of: Missing): ID \x7d
  extend type Query \x7b user: ID \x7d"

set_option maxRecDepth 10000 in
theorem exists_spelled : ∃ chars chars', profiles = String.ofList chars ∧
    strangers = String.ofList chars' ∧
    (match schemaChars chars with
      | .ok ds => ({} : Schema).addAllSpelled ds |>.closed
      | .error _ => false) = true ∧
    (match schemaChars chars' with
      | .ok ds => !(({} : Schema).addAllSpelled ds).closed
      | .error _ => false) = true :=
  ⟨_, _, rfl, rfl, by decide +kernel, by decide +kernel⟩

/-- The first text is loaded and the second is not. -/
theorem profiles_commits : (∃ ds, parseSchema profiles = .ok ds ∧
    (Declared.ofDefinitions (ds ++ Schema.internalDefinitions)).Refers (Schema.Known {} ds)) ∧
    (∃ ds, parseSchema strangers = .ok ds ∧
      ¬ (Declared.ofDefinitions (ds ++ Schema.internalDefinitions)).Refers (Schema.Known {} ds)) ∧
    (Store.empty.loadSchema strangers).1 = Store.empty := by
  obtain ⟨chars, chars', hchars, hchars', loads, fails⟩ := exists_spelled
  have empty : Store.empty.closed = true := by decide
  refine ⟨?_, ?_⟩
  · split at loads
    · next ds parsed =>
      rw [← Schema.addAll_eq] at loads
      have parsed : parseSchema profiles = .ok ds := by rw [hchars, parseSchema_ofList, parsed]
      have loaded : (Store.empty.loadSchema profiles).2 = .ok () := by
        rw [loadSchema_of_parse parsed]
        exact (closed_withSchema empty _).trans loads
      exact ⟨ds, parsed, (loadSchema_commits_iff empty parsed).1.mp loaded⟩
    · cases loads
  · split at fails
    · next ds parsed =>
      rw [← Schema.addAll_eq, Bool.not_eq_true'] at fails
      have parsed : parseSchema strangers = .ok ds := by rw [hchars', parseSchema_ofList, parsed]
      have failed : (Store.empty.loadSchema strangers).2 = .error .dangling := by
        rw [loadSchema, parsed, commit, if_neg]
        rw [closed_withSchema empty]
        exact ne_true_of_eq_false fails
      obtain ⟨iff, _, unchanged⟩ := loadSchema_commits_iff empty parsed
      refine ⟨⟨ds, parsed, fun refers => ?_⟩, (unchanged _ failed).2⟩
      rw [iff.mpr refers] at failed
      cases failed
    · cases fails

end Store

end GraphDoc
