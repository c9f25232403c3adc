import GraphDoc.Proofs.DefinitionOrder
import GraphDoc.Proofs.ListOperation.Fragments

/-!
# Directives are declared once

No write to a schema leaves a name with two directives, so each node type has one directive with
which the runtime deletes its records.
-/

set_option autoImplicit false

namespace GraphDoc

namespace Keyed

variable {κ α : Type} [DecidableEq κ] {t : Keyed κ α}

/-- No key has two rows. -/
def Single (t : Keyed κ α) : Prop := ∀ key, (t.rowsAt key).length ≤ 1

theorem ActsAt.single {write : Keyed κ α → Keyed κ α} {key : κ} {act : List α → List α}
    (hw : ActsAt write key act) (hact : ∀ rows, rows.length ≤ 1 → (act rows).length ≤ 1)
    (h : t.Single) : (write t).Single := by
  intro other
  rw [hw]
  split
  · exact hact _ (h other)
  · exact h other

theorem Single.add (h : t.Single) (key : κ) (a : α) : (t.add key a).Single := by
  refine (actsAt_add key a).single (fun rows hrows => ?_) h
  split
  · exact Nat.le_refl 1
  · exact hrows

theorem Single.put (h : t.Single) (key : κ) (a : α) : (t.put key a).Single := by
  refine (actsAt_put key a).single (fun rows hrows => ?_) h
  split
  · exact Nat.le_refl 1
  · rw [List.length_map]
    exact hrows

theorem Single.modify (h : t.Single) (key : κ) (f : α → α) : (t.modify key f).Single := by
  refine (actsAt_modify key f).single (fun rows hrows => ?_) h
  rw [List.length_map]
  exact hrows

theorem Single.exists_rowsAt (h : t.Single) {key : κ} (hc : t.contains key = true) :
    ∃ a, t.rowsAt key = [a] := by
  have hne := (contains_iff_rowsAt t key).mp hc
  have hle := h key
  cases hrows : t.rowsAt key with
  | nil => exact absurd hrows hne
  | cons a rest =>
    rw [hrows, List.length_cons] at hle
    obtain rfl : rest = [] := List.eq_nil_of_length_eq_zero (by omega)
    exact ⟨a, rfl⟩

end Keyed

namespace Schema

variable {s : Schema}

theorem single_addDefinitions (h : s.directives.Single) (internal : Bool)
    (ds : List Grammar.SchemaDefinition) : (addDefinitions internal ds s).directives.Single := by
  refine List.foldlRecOn (motive := fun t : Schema => t.directives.Single) ds _ h
    fun t ht d _ => ?_
  rw [addDefinition_eq]
  refine List.foldlRecOn (motive := fun t : Schema => t.directives.Single) _ _ ht
    fun t ht w _ => ?_
  cases w with
  | directive name row => exact ht.put name row
  | _ => exact ht

theorem directives_addTypenames (s : Schema) : (addTypenames s).directives = s.directives := by
  rw [addTypenames_eq]

theorem single_addAll (h : s.directives.Single) (ds : List Grammar.SchemaDefinition) :
    (addAll ds s).directives.Single := by
  have scalars : (Framework.builtInScalars.foldl addBuiltInScalar s).directives = s.directives :=
    List.foldlRecOn (motive := fun t : Schema => t.directives = s.directives) _ _ rfl
      fun t ht _ _ => ht
  have builtIn : (addBuiltIns s).directives.Single :=
    single_addDefinitions (by rw [scalars]; exact h) false _
  have project : (addProject ds s).directives.Single := by
    rw [addProject, directives_addTypenames]
    refine List.foldlRecOn (motive := fun t : Schema => t.directives.Single) _ _
      (single_addDefinitions builtIn false ds) fun t ht _ _ => ht
  rw [addAll, addInternal, directives_addTypenames]
  refine List.foldlRecOn (motive := fun t : Schema => t.directives.Single) _ _
    (single_addDefinitions project true _) fun t ht name _ => ?_
  exact ht.modify name _

end Schema

namespace Project

open Store

variable {p : Project} {s : Store} {stage : Stage}

theorem loadSchema_directives {t : Store} {text : String} (h : s.loadSchema text = (t, .ok ()))
    (hs : s.schema.directives.Single) : t.schema.directives.Single := by
  obtain ⟨loaded, _⟩ := commit_eq_ok h
  split at loaded
  · cases loaded
  · next ds _ =>
    cases loaded
    exact Schema.single_addAll hs ds

theorem prepare_directives (h : p.prepare = .ok s) : s.schema.directives.Single := by
  obtain ⟨t, hl, rfl⟩ := loadSchema_of_prepare h
  have loaded := loadSchema_directives hl fun _ => Nat.zero_le 1
  exact List.foldlRecOn (motive := fun r : Store × List Int => r.1.schema.directives.Single)
    p.sources _ loaded fun r hr _ _ => hr

theorem directives_discoverComponentFields (s : Store) :
    s.discoverComponentFields.1.schema.directives = s.schema.directives := by
  refine List.foldlRecOn (motive := fun outcome : Store × Diagnostics × List String =>
    outcome.1.schema.directives = s.schema.directives) _ _ rfl fun outcome ho group _ => ?_
  obtain ⟨t, found, fields⟩ := outcome
  cases group with
  | nil => exact ho
  | cons d others =>
    rw [registerGroup]
    simp only
    split
    · exact ho
    · refine Eq.trans ?_ ho
      rw [registerComponent]
      split <;> rfl

/-- Until list operations are generated every directive is declared once. -/
theorem After.directives (h : p.After stage s) (original : stage.original = true) :
    s.schema.directives.Single := by
  induction h with
  | prepare h => exact prepare_directives h
  | load h ih =>
    rw [(loadSources_ready h.keeps.1).schema]
    exact ih rfl
  | retype h ih =>
    rw [(retypeScalars_marking h.keeps.1 _).schema]
    exact ih rfl
  | discover h ih =>
    rw [directives_discoverComponentFields]
    exact ih rfl
  | list h listed ih =>
    rw [(discoverLists_relists listed).schema]
    exact ih rfl
  | @sweep s t _ h swept ih =>
    have relists : Relists s t := runAll_relists (fun _ => List.mem_append_left _) swept
    rw [relists.schema]
    exact ih rfl
  | rule h ruled ih =>
    obtain rfl := rules_keep ruled
    exact ih rfl
  | paginate h ih =>
    rw [(preparePagination_paging p.config h.keeps).rest]
    exact ih rfl
  | _ => cases original

end Project

namespace Store

variable {s : Store}

theorem schema_appendFields (document : Int) (typeName : String) (p : Position)
    (fields : List String) (index : Int) (s : Store) :
    (appendFields document typeName p index s fields).schema = s.schema := by
  induction fields generalizing index s with
  | nil => rfl
  | cons field fields ih => exact ih _ _

theorem schema_addListOperations (s : Store) (l : ListRow) :
    (s.addListOperations l).schema = { s.schema with
      directives := s.schema.directives.add (Framework.deleteDirective l.nodeType)
        ⟨false, true, true, some ("Delete the " ++ l.nodeType ++ " with the matching key")⟩
      directiveLocations := s.schema.directiveLocations.add
        (Framework.deleteDirective l.nodeType, "FIELD") () } := by
  have record : ∀ (p : Position) (t : Store) (ending : String),
      (addRecordFragment l p t ending).schema = t.schema := fun _ _ _ => schema_appendFields ..
  have remove : ∀ (p : Position) (t : Store), (addRemoveFragment l p t).schema = t.schema :=
    fun _ _ => schema_appendFields ..
  rw [addListOperations, addDeleteDirective, remove, List.foldl_cons, List.foldl_cons,
    List.foldl_nil, record, record]

/-- Each node type gets its directive, and none gets two. -/
theorem foldl_addListOperations_directives (ls : List ListRow) {s : Store}
    (h : s.schema.directives.Single) :
    (ls.foldl addListOperations s).schema.directives.Single ∧
    (∀ name, s.schema.directives.contains name = true →
      (ls.foldl addListOperations s).schema.directives.contains name = true) ∧
    (∀ pair, s.schema.directiveLocations.contains pair = true →
      (ls.foldl addListOperations s).schema.directiveLocations.contains pair = true) ∧
    ∀ l ∈ ls,
      (ls.foldl addListOperations s).schema.directives.contains
        (Framework.deleteDirective l.nodeType) = true ∧
      (ls.foldl addListOperations s).schema.directiveLocations.contains
        (Framework.deleteDirective l.nodeType, "FIELD") = true := by
  induction ls generalizing s with
  | nil => exact ⟨h, fun _ hc => hc, fun _ hc => hc, fun _ hl => absurd hl List.not_mem_nil⟩
  | cons l ls ih =>
    have schema := s.schema_addListOperations l
    rw [List.foldl_cons]
    generalize s.addListOperations l = t at schema ⊢
    obtain ⟨row, directives⟩ : ∃ row, t.schema.directives =
        s.schema.directives.add (Framework.deleteDirective l.nodeType) row := ⟨_, by rw [schema]⟩
    have locations : t.schema.directiveLocations = s.schema.directiveLocations.add
        (Framework.deleteDirective l.nodeType, "FIELD") () := by rw [schema]
    obtain ⟨single, kept, placed, later⟩ := @ih t (by rw [directives]; exact h.add _ row)
    rw [directives] at kept
    rw [locations] at placed
    refine ⟨single, fun name hc => kept name ?_, fun pair hc => placed pair ?_, fun l' hl => ?_⟩
    · rw [Keyed.contains_add, hc, Bool.or_true]
    · rw [Keyed.contains_add, hc, Bool.or_true]
    · rcases List.mem_cons.mp hl with rfl | hl
      · refine ⟨kept _ ?_, placed _ ?_⟩ <;> simp [Keyed.contains_add]
      · exact later l' hl

end Store

end GraphDoc
