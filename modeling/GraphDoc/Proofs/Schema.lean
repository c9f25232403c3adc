import GraphDoc.Schema.Load

/-!
# The schema under passes

The framework's definitions come with the component type, and what passes add to a schema leaves it
closed. The characters of a text literal are out of the kernel's reach, so the framework's texts are
spelled out as lists of characters.
-/

set_option autoImplicit false

namespace GraphDoc

namespace Keyed

variable {κ α : Type} [DecidableEq κ]

theorem mem_rows_of_get? {t : Keyed κ α} {key : κ} {a : α} (h : t.get? key = some a) :
    (key, a) ∈ t.rows := by
  obtain ⟨l₁, l₂, heq, _⟩ := List.lookup_eq_some_iff.mp h
  rw [heq]
  exact List.mem_append_right _ List.mem_cons_self

theorem contains_add (t : Keyed κ α) (key other : κ) (a : α) :
    (t.add key a).contains other = (decide (other = key) || t.contains other) := by
  rw [contains_eq, get?_add, contains_eq]
  by_cases h : other = key <;> simp [h]

theorem mem_rows_add {t : Keyed κ α} {key : κ} {a : α} {row : κ × α}
    (h : row ∈ (t.add key a).rows) : row ∈ t.rows ∨ row = (key, a) := by
  rw [add] at h
  split at h
  · exact .inl h
  · exact (List.mem_append.mp h).imp_right List.mem_singleton.mp

theorem mem_rows_put {t : Keyed κ α} {key : κ} {a : α} {row : κ × α}
    (h : row ∈ (t.put key a).rows) : row ∈ t.rows ∧ row.1 ≠ key ∨ row = (key, a) := by
  rw [put, upsert] at h
  split at h
  · obtain ⟨r, hr, rfl⟩ := List.mem_map.mp h
    split
    · next hk => exact .inr (hk ▸ rfl)
    · next hk => exact .inl ⟨hr, hk⟩
  · next hc =>
    rcases mem_rows_add h with h | rfl
    · exact .inl ⟨h, fun hk => hc (List.any_eq_true.mpr ⟨row, h, decide_eq_true hk⟩)⟩
    · exact .inr rfl

theorem mem_rows_add_of_mem {t : Keyed κ α} {key : κ} {a : α} {row : κ × α} (h : row ∈ t.rows) :
    row ∈ (t.add key a).rows := by
  rw [add]
  split
  · exact h
  · exact List.mem_append_left _ h

theorem exists_mem_rows_add (t : Keyed κ α) (key : κ) (a : α) :
    ∃ row ∈ (t.add key a).rows, row.1 = key := by
  rw [add]
  split
  · next hc =>
    obtain ⟨row, hr, hk⟩ := List.any_eq_true.mp hc
    exact ⟨row, hr, of_decide_eq_true hk⟩
  · exact ⟨(key, a), List.mem_append_right _ List.mem_cons_self, rfl⟩

theorem contains_put (t : Keyed κ α) (key other : κ) (a : α) :
    (t.put key a).contains other = (decide (other = key) || t.contains other) := by
  rw [contains_eq, get?_put, contains_eq]
  by_cases h : other = key <;> simp [h]

theorem contains_put_self (t : Keyed κ α) (key : κ) (a : α) :
    (t.put key a).contains key := by
  simp [contains_put]

theorem contains_put_of_contains {t : Keyed κ α} {other : κ} (key : κ) (a : α)
    (h : t.contains other) : (t.put key a).contains other := by
  simp [contains_put, h]

theorem mem_rows_put_self (t : Keyed κ α) (key : κ) (a : α) : (key, a) ∈ (t.put key a).rows := by
  rw [put, upsert]
  split
  · next hc =>
    obtain ⟨row, hr, hk⟩ := List.any_eq_true.mp hc
    have hk : row.1 = key := of_decide_eq_true hk
    refine List.mem_map.mpr ⟨row, hr, ?_⟩
    rw [if_pos hk, hk]
  · next hc =>
    rw [add, if_neg hc]
    exact List.mem_append_right _ List.mem_cons_self

theorem mem_rows_put_of_ne {t : Keyed κ α} {key : κ} {a : α} {row : κ × α} (h : row ∈ t.rows)
    (hne : row.1 ≠ key) : row ∈ (t.put key a).rows := by
  rw [put, upsert]
  split
  · exact List.mem_map.mpr ⟨row, h, if_neg hne⟩
  · exact mem_rows_add_of_mem h

end Keyed

/-! ## Spelled-out texts -/

namespace Grammar

/-- Parses a text that is given by its characters. -/
def parseChars {α : Type} (p : Nat → Parser α) (cs : List Char) : Except Position α :=
  let ts := tokens cs
  match p (ts.length + 1) ts with
  | .ok (a, _) => .ok a
  | .error position => .error position

theorem parseWith_ofList {α : Type} (p : Nat → Parser α) (cs : List Char) :
    parseWith p (String.ofList cs) = parseChars p cs := by
  rw [parseWith, String.toList_ofList]
  rfl

def schemaChars (cs : List Char) : Except Position (List SchemaDefinition) :=
  parseChars (fun fuel => definitionsUntilEnd (schemaDefinition fuel)) cs

theorem parseSchema_ofList (cs : List Char) :
    parseSchema (String.ofList cs) = schemaChars cs := parseWith_ofList ..

end Grammar

namespace Schema

open Grammar

/-- The framework's texts, spelled out. -/
structure Spelling where
  builtIn : List Char
  types : List Char
  directives : List Char
  tag : List Char
  builtIn_eq : builtInDirectives = String.ofList builtIn
  types_eq : internalTypes = String.ofList types
  directives_eq : internalDirectives = String.ofList directives
  tag_eq : Framework.runtimeScalarTag = String.ofList tag

set_option maxRecDepth 10000 in
def spelling : Spelling := ⟨_, _, _, _, rfl, rfl, rfl, rfl⟩

def internalChars : List Char :=
  spelling.types ++ spelling.directives ++ ['\n'] ++
    ("directive @".toList ++ spelling.tag ++ "(type: String!) on QUERY\n".toList)

theorem internalText_eq : internalText = String.ofList internalChars := by
  simp only [internalText, markerDirective, internalChars, spelling.types_eq,
    spelling.directives_eq, spelling.tag_eq, String.ofList_append, String.ofList_toList]

/-- The definitions of a text that is given by its characters. -/
def definitionsOfChars (cs : List Char) : List SchemaDefinition :=
  match schemaChars cs with
  | .ok ds => ds
  | .error _ => []

theorem definitionsOf_ofList (cs : List Char) :
    definitionsOf (String.ofList cs) = definitionsOfChars cs := by
  change (match parseSchema (String.ofList cs) with
    | .ok ds => ds
    | .error _ => []) = _
  rw [parseSchema_ofList]
  rfl

theorem internalDefinitions_eq : internalDefinitions = definitionsOfChars internalChars :=
  (congrArg definitionsOf internalText_eq).trans (definitionsOf_ofList internalChars)

/-! ## The component type -/

/-- The names of the types that are defined, extensions apart. -/
def definedTypes (ds : List SchemaDefinition) : List String :=
  ds.filterMap fun
    | .type t => some (defined t).1
    | _ => none

set_option maxRecDepth 100000 in
theorem mem_definedTypes_internalChars :
    Framework.componentType ∈ definedTypes (definitionsOfChars internalChars) := by
  decide +kernel

section

variable {s : Schema} {name : String}

/-- What no step changes is the same in the end. -/
theorem foldl_keeps {α β : Type} (view : Schema → β) (f : Schema → α → Schema)
    (hf : ∀ s a, view (f s a) = view s) (as : List α) (s : Schema) :
    view (as.foldl f s) = view s := by
  induction as generalizing s with
  | nil => rfl
  | cons a as ih => rw [List.foldl_cons, ih, hf]

/-- The parts of a type are its fields, their arguments, members and enum values. -/
theorem addParts_keeps {β : Type} (view : Schema → β)
    (fields : ∀ s rows, view { s with fields := rows } = view s)
    (arguments : ∀ s rows, view { s with arguments := rows } = view s)
    (members : ∀ s rows, view { s with members := rows } = view s)
    (values : ∀ s rows, view { s with enumValues := rows } = view s)
    (internal : Bool) (t : TypeDefinition) (s : Schema) :
    view (addParts internal t s) = view s := by
  have field : ∀ parent s f, view (addField internal parent s f) = view s := fun parent s f =>
    (foldl_keeps view (addArgument (idOf parent f.name)) (fun _ _ => arguments ..) ..).trans
      (fields ..)
  cases t with
  | scalar name => rfl
  | object name interfaces fields =>
    rw [addParts, foldl_keeps view (fun s i => addMember i name s) fun _ _ => members ..,
      foldl_keeps view _ (field name)]
  | interface name fields => exact foldl_keeps view _ (field name) ..
  | union name names =>
    exact foldl_keeps view (fun s m => addMember name m s) (fun _ _ => members ..) ..
  | enum name names => exact foldl_keeps view (addEnumValue name) (fun _ _ => values ..) ..
  | input name inputs =>
    exact foldl_keeps view (addInputField internal name) (fun _ _ => fields ..) ..

theorem types_addParts (internal : Bool) (t : TypeDefinition) (s : Schema) :
    (addParts internal t s).types = s.types :=
  addParts_keeps Schema.types (fun _ _ => rfl) (fun _ _ => rfl) (fun _ _ => rfl) (fun _ _ => rfl)
    internal t s

theorem types_addDirective (internal : Bool) (d : DirectiveDefinition) (s : Schema) :
    (addDirective internal d s).types = s.types := by
  rw [addDirective, foldl_keeps Schema.types (addDirectiveArgument d.name) fun _ _ => rfl,
    foldl_keeps Schema.types (addLocation d.name) fun _ _ => rfl]

theorem contains_types_addDefinition (internal : Bool) (d : SchemaDefinition) :
    (addDefinition internal s d).types.contains name ↔
      s.types.contains name ∨ name ∈ definedTypes [d] := by
  cases d with
  | roots r => simp [addDefinition, definedTypes]
  | extension t => simp [addDefinition, types_addParts, definedTypes]
  | directive d => simp [addDefinition, types_addDirective, definedTypes]
  | type t =>
    rw [addDefinition, types_addParts, addType, Keyed.contains_eq, Keyed.get?_upsert,
      Keyed.contains_eq]
    by_cases h : name = (defined t).1 <;> simp [h, definedTypes]

theorem contains_types_addDefinitions (internal : Bool) (ds : List SchemaDefinition) (s : Schema) :
    (addDefinitions internal ds s).types.contains name ↔
      s.types.contains name ∨ name ∈ definedTypes ds := by
  induction ds generalizing s with
  | nil => simp [addDefinitions, definedTypes]
  | cons d ds ih =>
    have split : definedTypes (d :: ds) = definedTypes [d] ++ definedTypes ds := by
      rw [definedTypes, definedTypes, definedTypes, ← List.filterMap_append]
      rfl
    rw [addDefinitions, List.foldl_cons, ← addDefinitions, ih, contains_types_addDefinition, split,
      List.mem_append, or_assoc]

theorem types_addTypenames (s : Schema) : (addTypenames s).types = s.types :=
  foldl_keeps Schema.types addTypename (fun s a => by rw [addTypename]; split <;> rfl) ..

theorem contains_types_addInternal (s : Schema) :
    (addInternal s).types.contains name ↔
      s.types.contains name ∨ name ∈ definedTypes internalDefinitions := by
  rw [addInternal, types_addTypenames, foldl_keeps Schema.types hideDirective fun _ _ => rfl,
    contains_types_addDefinitions]

/-- Every schema that was loaded has the component type. -/
theorem contains_componentType_addAll (ds : List SchemaDefinition) (s : Schema) :
    (addAll ds s).types.contains Framework.componentType := by
  rw [addAll, contains_types_addInternal, internalDefinitions_eq]
  exact .inr mem_definedTypes_internalChars

end

/-! ## What passes add -/

/-- What closedness asks, table by table. -/
theorem closed_iff (s : Schema) : s.closed ↔
    (∀ f ∈ s.fields.rows, s.types.contains f.2.parent ∧
      s.types.contains f.2.type.name) ∧
    (∀ a ∈ s.arguments.rows, s.fields.contains a.2.field ∧
      s.types.contains a.2.type.name) ∧
    (∀ m ∈ s.members.rows, s.types.contains m.1.1 ∧ s.types.contains m.1.2) ∧
    (∀ v ∈ s.enumValues.rows, s.types.contains v.1.1) ∧
    (∀ l ∈ s.directiveLocations.rows, s.directives.contains l.1.1) ∧
    ∀ a ∈ s.directiveArguments.rows, s.directives.contains a.1.1 := by
  simp only [closed, Bool.and_eq_true, List.all_eq_true, and_assoc]

theorem closed_addField {s : Schema} (h : s.closed) (id : String) {f : FieldRow}
    (hp : s.types.contains f.parent) (ht : s.types.contains f.type.name) :
    ({ s with fields := s.fields.add id f } : Schema).closed := by
  rw [closed_iff] at h ⊢
  obtain ⟨h1, h2, h3⟩ := h
  refine ⟨fun row hr => ?_, fun a ha => ⟨?_, (h2 a ha).2⟩, h3⟩
  · rcases Keyed.mem_rows_add hr with hr | rfl
    · exact h1 row hr
    · exact ⟨hp, ht⟩
  · rw [Keyed.contains_add, (h2 a ha).1, Bool.or_true]

theorem closed_addDirective {s : Schema} (h : s.closed) (name location : String)
    (row : DirectiveRow) :
    ({ s with
        directives := s.directives.add name row
        directiveLocations := s.directiveLocations.add (name, location) () } : Schema).closed =
      true := by
  rw [closed_iff] at h ⊢
  obtain ⟨h1, h2, h3, h4, h5, h6⟩ := h
  refine ⟨h1, h2, h3, h4, fun l hl => ?_, fun a ha => ?_⟩
  · rw [Keyed.contains_add]
    rcases Keyed.mem_rows_add hl with hl | rfl
    · rw [h5 l hl, Bool.or_true]
    · simp
  · rw [Keyed.contains_add, h6 a ha, Bool.or_true]

end Schema

end GraphDoc
