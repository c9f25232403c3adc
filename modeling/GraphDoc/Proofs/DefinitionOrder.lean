import Mathlib.Data.List.Flatten
import GraphDoc.Proofs.References

/-!
# The order of definitions

A schema loads alike in whatever order its definitions stand, as long as none of them declares what
another one declares. A definition is taken apart into writes of single rows. Two writes of
different rows commute, so that definitions may change places, and what comes after the definitions
does not see the order of the rows.
-/

set_option autoImplicit false

namespace GraphDoc

open Grammar

/-! ## Tables up to order -/

namespace Keyed

variable {κ α : Type} [DecidableEq κ] {t t' t'' : Keyed κ α}

/-- The rows of a key, in order. -/
def rowsAt (t : Keyed κ α) (key : κ) : List α := (t.rows.filter (·.1 = key)).map (·.2)

def Alike (t t' : Keyed κ α) : Prop := ∀ key, t.rowsAt key = t'.rowsAt key

theorem contains_iff_rowsAt (t : Keyed κ α) (key : κ) :
    t.contains key = true ↔ t.rowsAt key ≠ [] := by
  simp [contains, rowsAt]

theorem Alike.contains_eq (h : t.Alike t') (key : κ) : t.contains key = t'.contains key := by
  rw [Bool.eq_iff_iff, contains_iff_rowsAt, contains_iff_rowsAt, h key]

theorem Alike.filter_eq (h : t.Alike t') (key : κ) :
    t.rows.filter (·.1 = key) = t'.rows.filter (·.1 = key) := by
  have keyed : ∀ t : Keyed κ α, t.rows.filter (·.1 = key) = (t.rowsAt key).map (Prod.mk key) := by
    intro t
    rw [rowsAt, List.map_map]
    refine ((List.map_congr_left fun row hrow => ?_).trans (List.map_id _)).symm
    exact Prod.ext (of_decide_eq_true (List.mem_filter.mp hrow).2).symm rfl
  rw [keyed, keyed, h key]

theorem count_rowsAt [DecidableEq α] (t : Keyed κ α) (row : κ × α) :
    (t.rowsAt row.1).count row.2 = t.rows.count row := by
  obtain ⟨rows⟩ := t
  simp only [rowsAt]
  induction rows with
  | nil => rfl
  | cons r rows ih =>
    obtain ⟨key, a⟩ := r
    obtain ⟨other, b⟩ := row
    by_cases hkey : key = other
    · subst hkey
      simp only [decide_true, List.filter_cons_of_pos, List.map_cons, List.count_cons, ih]
      congr 1
      by_cases hab : a = b <;> simp [hab]
    · simp [hkey, ih]

theorem Alike.perm (h : t.Alike t') : t.rows.Perm t'.rows := by
  classical
  apply List.perm_iff_count.mpr
  intro row
  rw [← count_rowsAt, ← count_rowsAt, h row.1]

/-- A write that changes what one key has, and nothing else. -/
def ActsAt (write : Keyed κ α → Keyed κ α) (key : κ) (act : List α → List α) : Prop :=
  ∀ t other, (write t).rowsAt other =
    if other = key then act (t.rowsAt other) else t.rowsAt other

theorem ActsAt.congr {write : Keyed κ α → Keyed κ α} {key : κ} {act : List α → List α}
    (hw : ActsAt write key act) (h : t.Alike t') : (write t).Alike (write t') := by
  intro other
  rw [hw, hw, h other]

theorem ActsAt.comm {write write' : Keyed κ α → Keyed κ α} {key key' : κ}
    {act act' : List α → List α} (hw : ActsAt write key act) (hw' : ActsAt write' key' act')
    (h : key = key' → ∀ rows, act (act' rows) = act' (act rows)) :
    (write' (write t)).Alike (write (write' t)) := by
  intro other
  rw [hw', hw, hw, hw']
  by_cases hk : other = key
  · by_cases hk' : other = key'
    · simp only [if_pos hk, if_pos hk']
      exact (h (hk.symm.trans hk') _).symm
    · simp only [if_neg hk']
  · simp only [if_neg hk]

theorem actsAt_modify (key : κ) (f : α → α) :
    ActsAt (fun t => t.modify key f) key (List.map f) := by
  intro t other
  obtain ⟨rows⟩ := t
  simp only [rowsAt, modify]
  induction rows with
  | nil => simp
  | cons r rows ih =>
    obtain ⟨k, a⟩ := r
    by_cases hk : k = key
    · subst hk
      by_cases ho : other = k
      · subst ho
        simpa using ih
      · have hne : ¬ k = other := fun he => ho he.symm
        simpa [ho, hne] using ih
    · by_cases ho : k = other
      · subst ho
        simpa [hk] using ih
      · simpa [hk, ho] using ih

theorem actsAt_add (key : κ) (a : α) :
    ActsAt (fun t => t.add key a) key fun rows => if rows = [] then [a] else rows := by
  intro t other
  simp only [add]
  by_cases hc : t.contains key = true
  · have hne := (contains_iff_rowsAt t key).mp hc
    rw [if_pos hc]
    by_cases ho : other = key
    · subst ho
      rw [if_pos rfl, if_neg hne]
    · rw [if_neg ho]
  · have hnil : t.rowsAt key = [] := not_not.mp fun hne => hc ((contains_iff_rowsAt t key).mpr hne)
    have happend : rowsAt ⟨t.rows ++ [(key, a)]⟩ other =
        t.rowsAt other ++ if other = key then [a] else [] := by
      by_cases ho : other = key
      · simp [rowsAt, ho]
      · have hne : ¬ key = other := fun he => ho he.symm
        simp [rowsAt, ho, hne]
    rw [if_neg hc, happend]
    by_cases ho : other = key
    · subst ho
      rw [if_pos rfl, if_pos rfl, if_pos hnil, hnil, List.nil_append]
    · rw [if_neg ho, if_neg ho, List.append_nil]

theorem actsAt_upsert (key : κ) (a : α) (f : α → α) :
    ActsAt (fun t => t.upsert key a f) key fun rows => if rows = [] then [a] else rows.map f := by
  intro t other
  simp only [upsert]
  by_cases hc : t.contains key = true
  · have hne := (contains_iff_rowsAt t key).mp hc
    rw [if_pos hc, actsAt_modify key f t other]
    by_cases ho : other = key
    · subst ho
      rw [if_pos rfl, if_pos rfl, if_neg hne]
    · rw [if_neg ho, if_neg ho]
  · have hnil : t.rowsAt key = [] := not_not.mp fun hne => hc ((contains_iff_rowsAt t key).mpr hne)
    rw [if_neg hc, actsAt_add key a t other]
    by_cases ho : other = key
    · subst ho
      rw [if_pos rfl, if_pos rfl]
      simp only [if_pos hnil]
    · rw [if_neg ho, if_neg ho]

theorem actsAt_put (key : κ) (a : α) :
    ActsAt (fun t => t.put key a) key
      fun rows => if rows = [] then [a] else rows.map fun _ => a :=
  actsAt_upsert key a fun _ => a

end Keyed

namespace Schema

/-! ## Writes -/

inductive Write where
  | type (name : String) (kind : TypeKind) (internal : Bool)
  | field (id : String) (row : FieldRow)
  | argument (id : String) (row : ArgumentRow)
  | member (pair : String × String)
  | value (pair : String × String)
  | directive (name : String) (row : DirectiveRow)
  | location (pair : String × String)
  | directiveArgument (pair : String × String) (row : DirectiveArgumentRow)

def write (s : Schema) : Write → Schema
  | .type name kind internal => addType internal name kind s
  | .field id row => { s with fields := s.fields.put id row }
  | .argument id row => { s with arguments := s.arguments.put id row }
  | .member pair => { s with members := s.members.add pair () }
  | .value pair => { s with enumValues := s.enumValues.add pair () }
  | .directive name row => { s with directives := s.directives.put name row }
  | .location pair => { s with directiveLocations := s.directiveLocations.add pair () }
  | .directiveArgument pair row =>
    { s with directiveArguments := s.directiveArguments.put pair row }

def argumentWrite (field : String) (a : InputValue) : Write :=
  .argument (idOf field a.name) ⟨field, a.name, .ofExpr a.type⟩

def fieldWrites (internal : Bool) (parent : String) (f : FieldDefinition) : List Write :=
  .field (idOf parent f.name) ⟨parent, f.name, .ofExpr f.type, none, f.description?, internal⟩ ::
    f.arguments.map (argumentWrite (idOf parent f.name))

def inputWrite (internal : Bool) (parent : String) (f : InputValue) : Write :=
  .field (idOf parent f.name)
    ⟨parent, f.name, .ofExpr f.type, defaultText f, f.description?, internal⟩

def partWrites (internal : Bool) : TypeDefinition → List Write
  | .scalar _ => []
  | .object name interfaces fields =>
    fields.flatMap (fieldWrites internal name) ++ interfaces.map fun i => .member (i, name)
  | .interface name fields => fields.flatMap (fieldWrites internal name)
  | .union name members => members.map fun m => .member (name, m)
  | .enum name values => values.map fun v => .value (name, v)
  | .input name fields => fields.map (inputWrite internal name)

def directiveWrites (internal : Bool) (d : DirectiveDefinition) : List Write :=
  .directive d.name ⟨d.repeatable, internal, true, d.description?.map Text.trim⟩ ::
    (d.locations.map (fun l => .location (d.name, l)) ++
      d.arguments.map fun a => .directiveArgument (d.name, a.name) ⟨.ofExpr a.type, defaultText a⟩)

/-- What a definition writes, row by row. -/
def writes (internal : Bool) : SchemaDefinition → List Write
  | .roots _ => []
  | .type t => .type (defined t).1 (defined t).2 internal :: partWrites internal t
  | .extension t => partWrites internal t
  | .directive d => directiveWrites internal d

section

variable {s s' s'' : Schema} {internal : Bool}

theorem foldl_addField (parent : String) (fields : List FieldDefinition) (s : Schema) :
    fields.foldl (addField internal parent) s =
      (fields.flatMap (fieldWrites internal parent)).foldl write s := by
  rw [List.foldl_flatMap]
  congr 1
  funext s f
  rw [fieldWrites, List.foldl_cons, List.foldl_map]
  rfl

theorem addParts_eq (t : TypeDefinition) (s : Schema) :
    addParts internal t s = (partWrites internal t).foldl write s := by
  cases t with
  | scalar name => rfl
  | object name interfaces fields =>
    rw [addParts, partWrites, List.foldl_append, foldl_addField, List.foldl_map]
    rfl
  | interface name fields => exact foldl_addField name fields s
  | union name members =>
    rw [addParts, partWrites, List.foldl_map]
    rfl
  | enum name values =>
    rw [addParts, partWrites, List.foldl_map]
    rfl
  | input name fields =>
    rw [addParts, partWrites, List.foldl_map]
    rfl

theorem addDefinition_eq (d : SchemaDefinition) (s : Schema) :
    addDefinition internal s d = (writes internal d).foldl write s := by
  cases d with
  | roots r => rfl
  | type t => exact addParts_eq t _
  | extension t => exact addParts_eq t s
  | directive d =>
    rw [addDefinition, writes, directiveWrites, List.foldl_cons, List.foldl_append, List.foldl_map,
      List.foldl_map]
    rfl

/-! ## Schemas up to order -/

structure Alike (s s' : Schema) : Prop where
  types : s.types.Alike s'.types
  fields : s.fields.Alike s'.fields
  arguments : s.arguments.Alike s'.arguments
  members : s.members.Alike s'.members
  enumValues : s.enumValues.Alike s'.enumValues
  directives : s.directives.Alike s'.directives
  directiveLocations : s.directiveLocations.Alike s'.directiveLocations
  directiveArguments : s.directiveArguments.Alike s'.directiveArguments

theorem Alike.refl (s : Schema) : Alike s s := by
  constructor <;> exact fun _ => rfl

theorem Alike.trans (h : Alike s s') (h' : Alike s' s'') : Alike s s'' where
  types key := (h.types key).trans (h'.types key)
  fields key := (h.fields key).trans (h'.fields key)
  arguments key := (h.arguments key).trans (h'.arguments key)
  members key := (h.members key).trans (h'.members key)
  enumValues key := (h.enumValues key).trans (h'.enumValues key)
  directives key := (h.directives key).trans (h'.directives key)
  directiveLocations key := (h.directiveLocations key).trans (h'.directiveLocations key)
  directiveArguments key := (h.directiveArguments key).trans (h'.directiveArguments key)

theorem Alike.write (h : Alike s s') (w : Write) : Alike (s.write w) (s'.write w) := by
  cases w with
  | type name kind internal =>
    exact { h with types := (Keyed.actsAt_upsert name _ _).congr h.types }
  | field id row => exact { h with fields := (Keyed.actsAt_put id row).congr h.fields }
  | argument id row => exact { h with arguments := (Keyed.actsAt_put id row).congr h.arguments }
  | member pair => exact { h with members := (Keyed.actsAt_add pair ()).congr h.members }
  | value pair => exact { h with enumValues := (Keyed.actsAt_add pair ()).congr h.enumValues }
  | directive name row =>
    exact { h with directives := (Keyed.actsAt_put name row).congr h.directives }
  | location pair =>
    exact { h with
      directiveLocations := (Keyed.actsAt_add pair ()).congr h.directiveLocations }
  | directiveArgument pair row =>
    exact { h with
      directiveArguments := (Keyed.actsAt_put pair row).congr h.directiveArguments }

theorem Alike.foldl {α : Type} {f : Schema → α → Schema}
    (step : ∀ {s s'} a, Alike s s' → Alike (f s a) (f s' a)) (as : List α) (h : Alike s s') :
    Alike (as.foldl f s) (as.foldl f s') := by
  induction as generalizing s s' with
  | nil => exact h
  | cons a as ih => exact ih (step a h)

theorem Alike.addDefinitions (h : Alike s s') (ds : List SchemaDefinition) :
    Alike (addDefinitions internal ds s) (addDefinitions internal ds s') := by
  apply h.foldl
  intro s s' d h
  rw [addDefinition_eq, addDefinition_eq]
  exact h.foldl (fun w h => h.write w) _

/-- Two writes that may change places: they write different rows, or members, values and locations,
which only add up. -/
def Write.Apart : Write → Write → Prop
  | .type name _ _, .type name' _ _ => name ≠ name'
  | .field id _, .field id' _ => id ≠ id'
  | .argument id _, .argument id' _ => id ≠ id'
  | .directive name _, .directive name' _ => name ≠ name'
  | .directiveArgument pair _, .directiveArgument pair' _ => pair ≠ pair'
  | _, _ => True

theorem write_comm {w w' : Write} (h : w.Apart w') :
    Alike ((s.write w).write w') ((s.write w').write w) := by
  cases w <;> cases w'
  case type.type name kind internal name' kind' internal' =>
    refine { Alike.refl _ with types := ?_ }
    exact (Keyed.actsAt_upsert name _ _).comm (Keyed.actsAt_upsert name' _ _) fun he => absurd he h
  case field.field id row id' row' =>
    refine { Alike.refl _ with fields := ?_ }
    exact (Keyed.actsAt_put id row).comm (Keyed.actsAt_put id' row') fun he => absurd he h
  case argument.argument id row id' row' =>
    refine { Alike.refl _ with arguments := ?_ }
    exact (Keyed.actsAt_put id row).comm (Keyed.actsAt_put id' row') fun he => absurd he h
  case member.member pair pair' =>
    refine { Alike.refl _ with members := ?_ }
    exact (Keyed.actsAt_add pair ()).comm (Keyed.actsAt_add pair' ()) fun _ _ => rfl
  case value.value pair pair' =>
    refine { Alike.refl _ with enumValues := ?_ }
    exact (Keyed.actsAt_add pair ()).comm (Keyed.actsAt_add pair' ()) fun _ _ => rfl
  case directive.directive name row name' row' =>
    refine { Alike.refl _ with directives := ?_ }
    exact (Keyed.actsAt_put name row).comm (Keyed.actsAt_put name' row') fun he => absurd he h
  case location.location pair pair' =>
    refine { Alike.refl _ with directiveLocations := ?_ }
    exact (Keyed.actsAt_add pair ()).comm (Keyed.actsAt_add pair' ()) fun _ _ => rfl
  case directiveArgument.directiveArgument pair row pair' row' =>
    refine { Alike.refl _ with directiveArguments := ?_ }
    exact (Keyed.actsAt_put pair row).comm (Keyed.actsAt_put pair' row') fun he => absurd he h
  all_goals exact .refl _

theorem foldl_write_comm {w : Write} {ws : List Write} (h : ∀ w' ∈ ws, w.Apart w') :
    Alike (ws.foldl write (s.write w)) ((ws.foldl write s).write w) := by
  induction ws generalizing s with
  | nil => exact .refl _
  | cons w' ws ih =>
    obtain ⟨hw', hws⟩ := List.forall_mem_cons.mp h
    have swapped : Alike (ws.foldl write ((s.write w).write w'))
        (ws.foldl write ((s.write w').write w)) := (write_comm hw').foldl (fun v h => h.write v) ws
    exact swapped.trans (ih hws)

theorem foldl_foldl_write_comm {ws ws' : List Write} (h : ∀ w ∈ ws, ∀ w' ∈ ws', w.Apart w') :
    Alike (ws'.foldl write (ws.foldl write s)) (ws.foldl write (ws'.foldl write s)) := by
  induction ws generalizing s with
  | nil => exact .refl _
  | cons w ws ih =>
    obtain ⟨hw, hws⟩ := List.forall_mem_cons.mp h
    have passed : Alike (ws.foldl write (ws'.foldl write (s.write w)))
        (ws.foldl write ((ws'.foldl write s).write w)) :=
      (foldl_write_comm hw).foldl (fun v h => h.write v) ws
    exact (ih hws).trans passed

/-! ## Definitions that change places -/

/-- Two definitions that write nothing in common but what adds up. -/
def Independent (x y : SchemaDefinition) : Prop :=
  ∀ internal, ∀ w ∈ writes internal x, ∀ w' ∈ writes internal y, w.Apart w'

theorem Write.Apart.symm {w w' : Write} (h : w.Apart w') : w'.Apart w := by
  cases w <;> cases w'
  case type.type | field.field | argument.argument | directive.directive |
      directiveArgument.directiveArgument => exact Ne.symm h
  all_goals exact trivial

theorem Independent.symm {x y : SchemaDefinition} (h : Independent x y) : Independent y x := by
  intro internal w hw w' hw'
  exact (h internal w' hw' w hw).symm

theorem addDefinition_comm {x y : SchemaDefinition} (h : Independent x y) :
    Alike (addDefinition internal (addDefinition internal s x) y)
      (addDefinition internal (addDefinition internal s y) x) := by
  simp only [addDefinition_eq]
  exact foldl_foldl_write_comm (h internal)

theorem addDefinitions_perm {ds ds' : List SchemaDefinition} (order : ds.Perm ds')
    (apart : ds.Pairwise Independent) :
    Alike (addDefinitions internal ds s) (addDefinitions internal ds' s) := by
  induction order generalizing s with
  | nil => exact .refl s
  | cons x _ ih => exact ih (List.pairwise_cons.mp apart).2
  | swap x y ds =>
    -- Two neighbours change places; the rest writes on top of stores that are alike.
    have hyx := (List.pairwise_cons.mp apart).1 x List.mem_cons_self
    exact (addDefinition_comm hyx).addDefinitions ds
  | trans first _ ih ih' =>
    exact (ih apart).trans (ih' ((first.pairwise_iff fun h => h.symm).mp apart))

/-! ## What is declared once -/

def definedDirectives (ds : List SchemaDefinition) : List String :=
  ds.filterMap fun
    | .directive d => some d.name
    | _ => none

def isBlock : SchemaDefinition → Bool
  | .roots _ => true
  | _ => false

/-- No type and no directive is defined twice, no field and no argument of a field is declared
twice, extensions included, and there is at most one schema block. -/
structure DeclaredOnce (ds : List SchemaDefinition) : Prop where
  types : (definedTypes ds).Nodup
  directives : (definedDirectives ds).Nodup
  fields : ((Declared.ofDefinitions ds).fields.map (·.1)).Nodup
  arguments : ((Declared.ofDefinitions ds).arguments.map (·.1)).Nodup
  block : (ds.filter isBlock).length ≤ 1

theorem mem_fields_concat {ds : List Declared} {e : String × String × String} :
    e ∈ (Declared.concat ds).fields ↔ ∃ d ∈ ds, e ∈ d.fields := by
  induction ds with
  | nil => simp [Declared.concat]
  | cons d ds ih => simp [Declared.concat, ih]

theorem mem_arguments_concat {ds : List Declared} {e : String × String} :
    e ∈ (Declared.concat ds).arguments ↔ ∃ d ∈ ds, e ∈ d.arguments := by
  induction ds with
  | nil => simp [Declared.concat]
  | cons d ds ih => simp [Declared.concat, ih]

/-- The definition declares the row that is written. -/
def Write.DeclaredBy (x : SchemaDefinition) : Write → Prop
  | .type name _ _ => name ∈ definedTypes [x]
  | .field id _ => id ∈ (Declared.ofDefinition x).fields.map (·.1)
  | .argument id _ => id ∈ (Declared.ofDefinition x).arguments.map (·.1)
  | .directive name _ => name ∈ definedDirectives [x]
  | .directiveArgument pair _ => pair.1 ∈ definedDirectives [x]
  | _ => True

/-- The same for the parts of a type. -/
def Write.DeclaredIn (d : Declared) : Write → Prop
  | .field id _ => id ∈ d.fields.map (·.1)
  | .argument id _ => id ∈ d.arguments.map (·.1)
  | .member _ | .value _ => True
  | _ => False

theorem declaredIn_of_mem_fieldWrites {parent : String} {f : FieldDefinition} {w : Write}
    (h : w ∈ fieldWrites internal parent f) : w.DeclaredIn (.ofField parent f) := by
  rcases List.mem_cons.mp h with rfl | h
  · simp [Write.DeclaredIn, Declared.ofField]
  · obtain ⟨a, ha, rfl⟩ := List.mem_map.mp h
    apply List.mem_map.mpr
    refine ⟨(idOf (idOf parent f.name) a.name, a.type.base), ?_, rfl⟩
    rw [Declared.ofField, Declared.arguments_append, List.mem_append, mem_arguments_concat]
    exact .inr ⟨_, List.mem_map_of_mem ha, List.mem_cons_self⟩

theorem Write.DeclaredIn.concat {d : Declared} {ds : List Declared} {w : Write}
    (h : w.DeclaredIn d) (hd : d ∈ ds) : w.DeclaredIn (Declared.concat ds) := by
  cases w with
  | field id row =>
    obtain ⟨e, he, rfl⟩ := List.mem_map.mp h
    exact List.mem_map_of_mem (mem_fields_concat.mpr ⟨d, hd, he⟩)
  | argument id row =>
    obtain ⟨e, he, rfl⟩ := List.mem_map.mp h
    exact List.mem_map_of_mem (mem_arguments_concat.mpr ⟨d, hd, he⟩)
  | _ => exact h

theorem declaredIn_of_mem_flatMap {parent : String} {fields : List FieldDefinition} {w : Write}
    (h : w ∈ fields.flatMap (fieldWrites internal parent)) :
    w.DeclaredIn (Declared.concat (fields.map (.ofField parent))) := by
  obtain ⟨f, hf, hw⟩ := List.mem_flatMap.mp h
  exact (declaredIn_of_mem_fieldWrites hw).concat (List.mem_map_of_mem hf)

theorem declaredIn_of_mem_partWrites {t : TypeDefinition} {w : Write}
    (h : w ∈ partWrites internal t) : w.DeclaredIn (.ofBody t) := by
  cases t with
  | scalar name => cases h
  | object name interfaces fields =>
    rcases List.mem_append.mp h with h | h
    · have hw := declaredIn_of_mem_flatMap h
      cases w with
      | field id row =>
        simp only [Write.DeclaredIn, Declared.ofBody, Declared.fields_append, List.map_append]
        exact List.mem_append_left _ hw
      | argument id row =>
        simp only [Write.DeclaredIn, Declared.ofBody, Declared.arguments_append, List.map_append]
        exact List.mem_append_left _ hw
      | _ => exact hw
    · obtain ⟨i, _, rfl⟩ := List.mem_map.mp h
      trivial
  | interface name fields => exact declaredIn_of_mem_flatMap h
  | union name members =>
    obtain ⟨m, _, rfl⟩ := List.mem_map.mp h
    trivial
  | enum name values =>
    obtain ⟨v, _, rfl⟩ := List.mem_map.mp h
    trivial
  | input name fields =>
    obtain ⟨f, hf, rfl⟩ := List.mem_map.mp h
    have hin : (inputWrite internal name f).DeclaredIn (.ofInputField name f) := by
      simp [inputWrite, Write.DeclaredIn, Declared.ofInputField]
    exact hin.concat (List.mem_map_of_mem hf)

theorem declaredBy_of_mem_writes {x : SchemaDefinition} {w : Write} (h : w ∈ writes internal x) :
    w.DeclaredBy x := by
  have parts : ∀ {t : TypeDefinition}, x.body? = some t → w.DeclaredIn (.ofBody t) →
      w.DeclaredBy x := by
    intro t ht hw
    have hx : Declared.ofDefinition x = .ofBody t := by rw [Declared.ofDefinition, ht]
    cases w with
    | field id row => rwa [Write.DeclaredBy, hx]
    | argument id row => rwa [Write.DeclaredBy, hx]
    | member pair => trivial
    | value pair => trivial
    | _ => exact hw.elim
  cases x with
  | roots r => cases h
  | type t =>
    rcases List.mem_cons.mp h with rfl | h
    · simp [Write.DeclaredBy, definedTypes]
    · exact parts rfl (declaredIn_of_mem_partWrites h)
  | extension t => exact parts rfl (declaredIn_of_mem_partWrites h)
  | directive d =>
    rcases List.mem_cons.mp h with rfl | h
    · simp [Write.DeclaredBy, definedDirectives]
    · rcases List.mem_append.mp h with h | h
      · obtain ⟨l, _, rfl⟩ := List.mem_map.mp h
        trivial
      · obtain ⟨a, _, rfl⟩ := List.mem_map.mp h
        simp [Write.DeclaredBy, definedDirectives]

theorem definedTypes_cons (x : SchemaDefinition) (ds : List SchemaDefinition) :
    definedTypes (x :: ds) = definedTypes [x] ++ definedTypes ds := by
  rw [definedTypes, definedTypes, definedTypes, ← List.filterMap_append, List.singleton_append]

theorem definedDirectives_cons (x : SchemaDefinition) (ds : List SchemaDefinition) :
    definedDirectives (x :: ds) = definedDirectives [x] ++ definedDirectives ds := by
  rw [definedDirectives, definedDirectives, definedDirectives, ← List.filterMap_append,
    List.singleton_append]

theorem ofDefinitions_cons (x : SchemaDefinition) (ds : List SchemaDefinition) :
    Declared.ofDefinitions (x :: ds) = Declared.ofDefinition x ++ Declared.ofDefinitions ds := rfl

theorem mem_of_declaredBy {ds : List SchemaDefinition} {y : SchemaDefinition} (hy : y ∈ ds) :
    (∀ name ∈ definedTypes [y], name ∈ definedTypes ds) ∧
    (∀ name ∈ definedDirectives [y], name ∈ definedDirectives ds) ∧
    (∀ id ∈ (Declared.ofDefinition y).fields.map (·.1),
      id ∈ (Declared.ofDefinitions ds).fields.map (·.1)) ∧
    ∀ id ∈ (Declared.ofDefinition y).arguments.map (·.1),
      id ∈ (Declared.ofDefinitions ds).arguments.map (·.1) := by
  induction ds with
  | nil => cases hy
  | cons x ds ih =>
    simp only [definedTypes_cons x ds, definedDirectives_cons x ds, ofDefinitions_cons,
      Declared.fields_append, Declared.arguments_append, List.map_append, List.mem_append]
    rcases List.mem_cons.mp hy with rfl | hy
    · exact ⟨fun _ => .inl, fun _ => .inl, fun _ => .inl, fun _ => .inl⟩
    · obtain ⟨types, directives, fields, arguments⟩ := ih hy
      exact ⟨fun n h => .inr (types n h), fun n h => .inr (directives n h),
        fun i h => .inr (fields i h), fun i h => .inr (arguments i h)⟩

theorem DeclaredOnce.tail {x : SchemaDefinition} {ds : List SchemaDefinition}
    (h : DeclaredOnce (x :: ds)) : DeclaredOnce ds where
  types := (List.nodup_append.mp (definedTypes_cons x ds ▸ h.types)).2.1
  directives := (List.nodup_append.mp (definedDirectives_cons x ds ▸ h.directives)).2.1
  fields := by
    have := h.fields
    rw [ofDefinitions_cons, Declared.fields_append, List.map_append] at this
    exact (List.nodup_append.mp this).2.1
  arguments := by
    have := h.arguments
    rw [ofDefinitions_cons, Declared.arguments_append, List.map_append] at this
    exact (List.nodup_append.mp this).2.1
  block := by
    refine Nat.le_trans ?_ h.block
    exact (List.Sublist.filter _ (List.sublist_cons_self x ds)).length_le

theorem DeclaredOnce.independent {x y : SchemaDefinition} {ds : List SchemaDefinition}
    (h : DeclaredOnce (x :: ds)) (hy : y ∈ ds) : Independent x y := by
  intro internal w hw w' hw'
  have hx := declaredBy_of_mem_writes hw
  have hy' := declaredBy_of_mem_writes hw'
  obtain ⟨types, directives, fields, arguments⟩ := mem_of_declaredBy hy
  have noType := (List.nodup_append.mp (definedTypes_cons x ds ▸ h.types)).2.2
  have noDirective := (List.nodup_append.mp (definedDirectives_cons x ds ▸ h.directives)).2.2
  have noField := h.fields
  have noArgument := h.arguments
  rw [ofDefinitions_cons, Declared.fields_append, List.map_append] at noField
  rw [ofDefinitions_cons, Declared.arguments_append, List.map_append] at noArgument
  cases w <;> cases w'
  case type.type => exact noType _ hx _ (types _ hy')
  case field.field => exact (List.nodup_append.mp noField).2.2 _ hx _ (fields _ hy')
  case argument.argument => exact (List.nodup_append.mp noArgument).2.2 _ hx _ (arguments _ hy')
  case directive.directive => exact noDirective _ hx _ (directives _ hy')
  case directiveArgument.directiveArgument =>
    intro he
    exact noDirective _ hx _ (directives _ hy') (congrArg Prod.fst he)
  all_goals trivial

theorem DeclaredOnce.pairwise {ds : List SchemaDefinition} (h : DeclaredOnce ds) :
    ds.Pairwise Independent := by
  induction ds with
  | nil => exact .nil
  | cons x ds ih => exact .cons (fun y hy => h.independent hy) (ih h.tail)

/-! ## Roots, type names and hidden directives -/

theorem Alike.markRoot (h : Alike s s') (root : DocumentKind × String) :
    Alike (markRoot s root) (markRoot s' root) :=
  { h with types := (Keyed.actsAt_modify root.2 _).congr h.types }

theorem Alike.hideDirective (h : Alike s s') (name : String) :
    Alike (hideDirective s name) (hideDirective s' name) :=
  { h with directives := (Keyed.actsAt_modify name _).congr h.directives }

/-- The roots after one more definition. -/
def pickRoots (roots : String × String × String) : SchemaDefinition → String × String × String
  | .roots r => (r.query?.getD roots.1, r.mutation?.getD roots.2.1, r.subscription?.getD roots.2.2)
  | _ => roots

theorem foldl_pickRoots (ds : List SchemaDefinition) (roots : String × String × String) :
    ds.foldl pickRoots roots = (ds.filter isBlock).foldl pickRoots roots := by
  induction ds generalizing roots with
  | nil => rfl
  | cons d ds ih => cases d <;> exact ih _

theorem rootNames_eq (ds : List SchemaDefinition) : rootNames ds =
    [(.query, ((ds.filter isBlock).foldl pickRoots ("Query", "Mutation", "Subscription")).1),
      (.mutation, ((ds.filter isBlock).foldl pickRoots ("Query", "Mutation", "Subscription")).2.1),
      (.subscription,
        ((ds.filter isBlock).foldl pickRoots ("Query", "Mutation", "Subscription")).2.2)] := by
  rw [← foldl_pickRoots]
  rfl

theorem eq_of_perm_of_length_le_one {α : Type} {l l' : List α} (h : l.Perm l')
    (hl : l.length ≤ 1) : l = l' := by
  match l, hl with
  | [], _ => exact (List.perm_nil.mp h.symm).symm
  | [a], _ => exact (List.perm_singleton.mp h.symm).symm

theorem rootNames_perm {ds ds' : List SchemaDefinition} (order : ds.Perm ds')
    (block : (ds.filter isBlock).length ≤ 1) : rootNames ds = rootNames ds' := by
  rw [rootNames_eq, rootNames_eq, eq_of_perm_of_length_le_one (order.filter isBlock) block]

/-- The `__typename` fields that types ask for. -/
def typenameRow? (type : String × TypeRow) : Option (String × FieldRow) :=
  if type.2.kind.isComposite && !type.2.builtIn then
    some (idOf type.1 Framework.typenameField,
      ⟨type.1, Framework.typenameField, ⟨"String", "!"⟩, none, none, type.2.internal⟩)
  else none

theorem addTypenames_eq (s : Schema) : addTypenames s = { s with
    fields := (s.types.rows.filterMap typenameRow?).foldl (fun t f => t.add f.1 f.2) s.fields } := by
  rw [addTypenames]
  generalize s.types.rows = types
  induction types generalizing s with
  | nil => rfl
  | cons type types ih =>
    rw [List.foldl_cons, ih, List.filterMap_cons]
    by_cases hc : (type.2.kind.isComposite && !type.2.builtIn) = true
    · simp only [addTypename, typenameRow?, if_pos hc, List.foldl_cons]
    · simp only [addTypename, typenameRow?, if_neg hc]

theorem rowsAt_foldl_add (fs : List (String × FieldRow)) (t : Keyed String FieldRow) (id : String) :
    (fs.foldl (fun t f => t.add f.1 f.2) t).rowsAt id =
      if t.rowsAt id = [] then ((fs.filter (·.1 = id)).map (·.2)).take 1 else t.rowsAt id := by
  induction fs generalizing t with
  | nil =>
    by_cases hnil : t.rowsAt id = []
    · simp [hnil]
    · simp [hnil]
  | cons f fs ih =>
    rw [List.foldl_cons, ih, Keyed.actsAt_add f.1 f.2 t id]
    by_cases hid : f.1 = id
    · subst hid
      by_cases hnil : t.rowsAt f.1 = []
      · simp [hnil]
      · simp [hnil]
    · have hne : ¬ id = f.1 := fun he => hid he.symm
      simp [hid, hne]

theorem filter_typenameRow? (types : List (String × TypeRow)) (name : String) :
    (types.filterMap typenameRow?).filter (·.1 = idOf name Framework.typenameField) =
      (types.filter (·.1 = name)).filterMap typenameRow? := by
  rw [List.filter_filterMap, List.filterMap_filter]
  apply List.filterMap_congr
  intro type _
  have hid : idOf type.1 Framework.typenameField = idOf name Framework.typenameField ↔
      type.1 = name := by simp [idOf]
  by_cases hc : (type.2.kind.isComposite && !type.2.builtIn) = true
  · by_cases hname : type.1 = name
    · simp [typenameRow?, hc, hname, Option.filter]
    · simp [typenameRow?, hc, hname, hid, Option.filter]
  · simp [typenameRow?, hc]

theorem Alike.addTypenames (h : Alike s s') : Alike (addTypenames s) (addTypenames s') := by
  rw [addTypenames_eq, addTypenames_eq]
  refine { h with fields := ?_ }
  intro id
  rw [rowsAt_foldl_add, rowsAt_foldl_add, h.fields id]
  have asked : (s.types.rows.filterMap typenameRow?).filter (·.1 = id) =
      (s'.types.rows.filterMap typenameRow?).filter (·.1 = id) := by
    -- An id asks for the field of one type at most, and the rows of that type are the same.
    by_cases hid : ∃ name, id = idOf name Framework.typenameField
    · obtain ⟨name, rfl⟩ := hid
      rw [filter_typenameRow?, filter_typenameRow?, h.types.filter_eq name]
    · have none : ∀ types : List (String × TypeRow),
          (types.filterMap typenameRow?).filter (·.1 = id) = [] := by
        intro types
        apply List.filter_eq_nil_iff.mpr
        intro f hf he
        obtain ⟨type, _, htype⟩ := List.mem_filterMap.mp hf
        obtain ⟨_, hf⟩ := Option.ite_none_right_eq_some.mp htype
        obtain rfl := Option.some.inj hf
        exact hid ⟨type.1, (of_decide_eq_true he).symm⟩
      rw [none, none]
  rw [asked]

theorem addAll_perm {ds ds' : List SchemaDefinition} (order : ds.Perm ds') (once : DeclaredOnce ds)
    (s : Schema) : Alike (addAll ds s) (addAll ds' s) := by
  have defined : Alike (addDefinitions false ds (addBuiltIns s))
      (addDefinitions false ds' (addBuiltIns s)) := addDefinitions_perm order once.pairwise
  have marked : Alike ((rootNames ds).foldl markRoot (addDefinitions false ds (addBuiltIns s)))
      ((rootNames ds').foldl markRoot (addDefinitions false ds' (addBuiltIns s))) := by
    rw [← rootNames_perm order once.block]
    exact defined.foldl (fun root h => h.markRoot root) _
  have project : Alike (addProject ds s) (addProject ds' s) := marked.addTypenames
  have hidden : Alike
      (hiddenDirectives.foldl hideDirective
        (addDefinitions true internalDefinitions (addProject ds s)))
      (hiddenDirectives.foldl hideDirective
        (addDefinitions true internalDefinitions (addProject ds' s))) :=
    (project.addDefinitions internalDefinitions).foldl (fun name h => h.hideDirective name) _
  exact hidden.addTypenames

theorem Alike.closed_eq (h : Alike s s') : s.closed = s'.closed := by
  have types := h.types.contains_eq
  have fields := h.fields.contains_eq
  have directives := h.directives.contains_eq
  simp only [closed, types, fields, directives, h.fields.perm.all_eq, h.arguments.perm.all_eq,
    h.members.perm.all_eq, h.enumValues.perm.all_eq, h.directiveLocations.perm.all_eq,
    h.directiveArguments.perm.all_eq]

end

/-- The tables hold the same rows, in whatever order. -/
structure SameRows (s s' : Schema) : Prop where
  types : s.types.rows.Perm s'.types.rows
  fields : s.fields.rows.Perm s'.fields.rows
  arguments : s.arguments.rows.Perm s'.arguments.rows
  members : s.members.rows.Perm s'.members.rows
  enumValues : s.enumValues.rows.Perm s'.enumValues.rows
  directives : s.directives.rows.Perm s'.directives.rows
  directiveLocations : s.directiveLocations.rows.Perm s'.directiveLocations.rows
  directiveArguments : s.directiveArguments.rows.Perm s'.directiveArguments.rows

theorem Alike.sameRows {s s' : Schema} (h : Alike s s') : SameRows s s' :=
  ⟨h.types.perm, h.fields.perm, h.arguments.perm, h.members.perm, h.enumValues.perm,
    h.directives.perm, h.directiveLocations.perm, h.directiveArguments.perm⟩

end Schema

/-! ## Loading -/

namespace Store

theorem closed_alike {schema schema' : Schema} (h : schema.Alike schema') (s : Store) :
    ({ s with schema := schema } : Store).closed = ({ s with schema := schema' } : Store).closed := by
  simp only [closed_eq, closedUnder, h.closed_eq]

/-- Committing schemas that are alike. They are variables here: otherwise Lean would run `addAll`. -/
theorem commit_alike {schema schema' : Schema} (h : schema.Alike schema') {s : Store}
    {r r' : Store × Except Failure Unit}
    (hr : r = s.commit (.ok ({ s with schema := schema }, ())))
    (hr' : r' = s.commit (.ok ({ s with schema := schema' }, ()))) :
    r.2 = r'.2 ∧ Schema.SameRows r.1.schema r'.1.schema ∧
    { r.1 with schema := s.schema } = s ∧ { r'.1 with schema := s.schema } = s := by
  rw [commit, closed_alike h s] at hr
  rw [commit] at hr'
  subst hr hr'
  split
  · exact ⟨rfl, h.sameRows, rfl, rfl⟩
  · exact ⟨rfl, (Schema.Alike.refl s.schema).sameRows, rfl, rfl⟩

/-- Two texts with the same definitions in different orders are loaded alike: either both fail and
leave nothing behind, or both leave the same rows. -/
theorem loadSchema_reordered {text text' : String} {ds ds' : List SchemaDefinition}
    (parsed : parseSchema text = .ok ds) (parsed' : parseSchema text' = .ok ds')
    (order : ds.Perm ds') (once : Schema.DeclaredOnce ds) (s : Store) :
    (s.loadSchema text).2 = (s.loadSchema text').2 ∧
    Schema.SameRows (s.loadSchema text).1.schema (s.loadSchema text').1.schema ∧
    { (s.loadSchema text).1 with schema := s.schema } = s ∧
    { (s.loadSchema text').1 with schema := s.schema } = s := by
  have alike := Schema.addAll_perm order once s.schema
  apply commit_alike alike
  · rw [loadSchema, parsed]
  · rw [loadSchema, parsed']

/-- A text in which an extension stands before the type that it extends. -/
def forwards : String := "extend type User implements Node \x7b role(of: ID): Role \x7d
  type User \x7b id: ID \x7d schema \x7b query: Root \x7d interface Node \x7b id: ID \x7d
  enum Role \x7b ADMIN \x7d directive @only(role: Role) on FIELD type Root \x7b user: User \x7d"

/-- The same definitions the other way round. -/
def backwards : String := "type Root \x7b user: User \x7d directive @only(role: Role) on FIELD
  enum Role \x7b ADMIN \x7d interface Node \x7b id: ID \x7d schema \x7b query: Root \x7d
  type User \x7b id: ID \x7d extend type User implements Node \x7b role(of: ID): Role \x7d"

set_option maxRecDepth 100000 in
theorem exists_reordered : ∃ chars chars' ds, forwards = String.ofList chars ∧
    backwards = String.ofList chars' ∧ schemaChars chars = .ok ds ∧
    schemaChars chars' = .ok ds.reverse ∧ Schema.DeclaredOnce ds ∧
    (({} : Schema).addAllSpelled ds).closed = true :=
  ⟨_, _, _, rfl, rfl, rfl, rfl,
    ⟨by decide +kernel, by decide +kernel, by decide +kernel, by decide +kernel,
      by decide +kernel⟩, by decide +kernel⟩

/-- Both texts are loaded, and the extension is there in both cases. -/
theorem forwards_reordered : (∃ ds, parseSchema forwards = .ok ds ∧
      parseSchema backwards = .ok ds.reverse ∧ Schema.DeclaredOnce ds) ∧
    (Store.empty.loadSchema forwards).2 = .ok () ∧ (Store.empty.loadSchema backwards).2 = .ok () ∧
    Schema.SameRows (Store.empty.loadSchema forwards).1.schema
      (Store.empty.loadSchema backwards).1.schema := by
  obtain ⟨chars, chars', ds, hchars, hchars', parsed, parsed', once, loads⟩ := exists_reordered
  rw [← parseSchema_ofList, ← hchars] at parsed
  rw [← parseSchema_ofList, ← hchars'] at parsed'
  rw [← Schema.addAll_eq] at loads
  have empty : Store.empty.closed = true := by decide
  have loaded : (Store.empty.loadSchema forwards).2 = .ok () := by
    rw [loadSchema_of_parse parsed]
    exact (closed_withSchema empty _).trans loads
  obtain ⟨same, rows, _⟩ :=
    loadSchema_reordered parsed parsed' (List.reverse_perm ds).symm once Store.empty
  exact ⟨⟨ds, parsed, parsed', once⟩, loaded, same ▸ loaded, rows⟩

end Store

end GraphDoc
