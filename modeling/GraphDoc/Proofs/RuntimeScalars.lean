import Mathlib.Algebra.GroupWithZero.Nat
import GraphDoc.Proofs.Components
import GraphDoc.Proofs.Marking
import GraphDoc.Proofs.NameMap
import GraphDoc.Proofs.Stages

/-!
# What becomes of variables of runtime scalars

The scalars are taken one after the other, so a variable that is sent as one scalar can be taken for
a runtime scalar again. `Framework.trail` gives the runtime scalars that a type is taken for on its
way and `Framework.destination` the type it has in the end. One step sends the variables of one
scalar, and a run sends each variable along its trail, with a marker for each type it had.

If no type is taken for a runtime scalar after it was sent, each variable is sent once.
-/

set_option autoImplicit false

namespace GraphDoc

open Table

namespace Framework

/-- The runtime scalars that a type is taken for, one after the other. -/
def trail : NameMap String → String → List String
  | [], _ => []
  | scalar :: rest, t => if t = scalar.1 then t :: trail rest scalar.2 else trail rest t

/-- The type that a type is sent as in the end. -/
def destination : NameMap String → String → String
  | [], t => t
  | scalar :: rest, t => destination rest (if t = scalar.1 then scalar.2 else t)

/-- What the type is sent as is no runtime scalar that is taken after it. -/
def SentOnce (scalars : NameMap String) (t : String) : Prop :=
  ∀ sentAs, NameMap.get? t scalars = some sentAs →
    ∀ scalar ∈ scalars, t < scalar.1 → scalar.1 ≠ sentAs

variable {scalars : NameMap String} {t sentAs : String}

instance decidableSentOnce : Decidable (SentOnce scalars t) :=
  match h : NameMap.get? t scalars with
  | none => isTrue fun _ h' => absurd (h.symm.trans h') (Option.some_ne_none _).symm
  | some sentAs => decidable_of_iff (∀ scalar ∈ scalars, t < scalar.1 → scalar.1 ≠ sentAs)
    ⟨fun all _ h' => Option.some.inj (h.symm.trans h') ▸ all, fun once => once sentAs h⟩

theorem trail_of_forall_ne (h : ∀ scalar ∈ scalars, scalar.1 ≠ t) :
    trail scalars t = [] ∧ destination scalars t = t := by
  induction scalars with
  | nil => exact ⟨rfl, rfl⟩
  | cons scalar rest ih =>
    have hne : t ≠ scalar.1 := Ne.symm (h scalar List.mem_cons_self)
    rw [trail, destination, if_neg hne, if_neg hne]
    exact ih fun other ho => h other (List.mem_cons_of_mem _ ho)

theorem trail_of_get?_eq_none (h : NameMap.get? t scalars = none) :
    trail scalars t = [] ∧ destination scalars t = t := by
  apply trail_of_forall_ne
  induction scalars with
  | nil => exact fun _ hs => absurd hs List.not_mem_nil
  | cons scalar rest ih =>
    rw [NameMap.get?] at h
    split at h
    · cases h
    · next hne =>
      intro other ho
      rcases List.mem_cons.mp ho with rfl | ho
      · exact Ne.symm hne
      · exact ih h other ho

theorem trail_of_get?_eq_some (ascending : NameMap.Ascending scalars) (once : SentOnce scalars t)
    (h : NameMap.get? t scalars = some sentAs) :
    trail scalars t = [t] ∧ destination scalars t = sentAs := by
  induction scalars with
  | nil => cases h
  | cons scalar rest ih =>
    obtain ⟨first, ascending⟩ := List.pairwise_cons.mp ascending
    have hget := h
    rw [NameMap.get?] at h
    rw [trail, destination]
    by_cases ht : t = scalar.1
    · rw [if_pos ht] at h ⊢
      rw [if_pos ht]
      -- All scalars that are left come after `t`.
      obtain ⟨ended, last⟩ := trail_of_forall_ne (t := scalar.2) fun other ho =>
        Option.some.inj h ▸ once sentAs hget other (List.mem_cons_of_mem _ ho) (ht ▸ first other ho)
      exact ⟨congrArg _ ended, last.trans (Option.some.inj h)⟩
    · rw [if_neg ht] at h ⊢
      rw [if_neg ht]
      refine ih ascending (fun sentAs' hget' other ho => ?_) h
      have hget' : NameMap.get? t (scalar :: rest) = some sentAs' := by
        rw [NameMap.get?, if_neg ht]
        exact hget'
      exact once sentAs' hget' other (List.mem_cons_of_mem _ ho)

/-- The directive that keeps the type a variable had. -/
def scalarMarker (runtime : String) : DirectiveNode :=
  ⟨runtimeScalarTag, [(typeArgument, .leaf .string runtime)]⟩

end Framework

/-- The variable with another type of the same modifiers. -/
def VariableRow.sentAs (v : VariableRow) (scalar : String) : VariableRow :=
  { v with type := ⟨scalar, v.type.modifiers⟩ }

namespace Store

open Framework Grammar

variable {s s' : Store}

/-! ## One scalar -/

theorem retype_nodes (h : s.Ready NoBorrowers) (runtime sentAs : String)
    {entry : Int × VariableRow} (he : s.declarations.contains entry.1)
    (hd : s.documents.contains entry.2.document) (id : Int) :
    (retype runtime sentAs s entry).nodes .declaration id =
      s.nodes .declaration id ++ if entry.1 = id then [scalarMarker runtime] else [] := by
  have ready : Ready NoBorrowers { s with
      declarations := s.declarations.modify entry.1 (·.sentAs sentAs) } :=
    h.modifyDeclaration (fun _ => rfl) fun _ _ => .inl rfl
  have owner : (s.declarations.modify entry.1 (·.sentAs sentAs)).contains entry.1 := by
    rwa [contains_modify]
  refine (nodes_addMarker ready .declaration hd owner ⟨.string runtime, .string runtime, rfl⟩
    runtimeScalarTag typeArgument (some ⟨"String", "!"⟩) entry.2.position id).trans ?_
  refine congrArg (· ++ _) ?_
  apply nodes_of_tables <;> rfl

theorem foldl_retype (h : s.Ready NoBorrowers) (runtime sentAs : String)
    (es : List (Int × VariableRow)) (hes : ∀ e ∈ es, s.declarations.contains e.1 ∧
      s.documents.contains e.2.document) (distinct : (es.map (·.1)).Nodup) :
    (es.foldl (retype runtime sentAs) s).declarations =
      s.declarations.mapRows (fun id v => if id ∈ es.map (·.1) then v.sentAs sentAs else v) ∧
    ∀ id, (es.foldl (retype runtime sentAs) s).nodes .declaration id =
      s.nodes .declaration id ++ if id ∈ es.map (·.1) then [scalarMarker runtime] else [] := by
  constructor
  · have tables : (es.foldl (retype runtime sentAs) s).declarations = (es.map (·.1)).foldl
        (fun t id => t.modify id (·.sentAs sentAs)) s.declarations := by
      rw [List.foldl_map]
      exact (List.foldl_hom Store.declarations fun _ _ => rfl).symm
    rw [tables, foldl_modify _ distinct]
  · intro id
    induction es generalizing s with
    | nil => simp
    | cons e es ih =>
      obtain ⟨he, hd⟩ := hes e List.mem_cons_self
      obtain ⟨new, distinct⟩ := List.nodup_cons.mp distinct
      have marking := retype_marking h runtime sentAs he hd
      rw [List.foldl_cons, ih marking.ready (fun e' he' => ?_) distinct,
        retype_nodes h runtime sentAs he hd, List.append_assoc]
      · congr 1
        simp only [List.map_cons, List.mem_cons]
        by_cases hid : e.1 = id
        · subst hid
          rw [if_pos rfl, if_neg new, if_pos (.inl rfl), List.append_nil]
        · simp only [hid, Ne.symm hid, if_false, List.nil_append, false_or]
      · obtain ⟨here, hdocument⟩ := hes e' (List.mem_cons_of_mem _ he')
        rw [marking.declarations, marking.documents]
        exact ⟨here, hdocument⟩

theorem mem_found_iff {t : Table VariableRow} {e : Int × VariableRow} (he : e ∈ t.entries)
    (q : VariableRow → Bool) : e.1 ∈ (t.entries.filter fun e => q e.2).map (·.1) ↔ q e.2 := by
  constructor
  · intro hm
    obtain ⟨e', he', heq⟩ := List.mem_map.mp hm
    obtain ⟨hm', hq⟩ := List.mem_filter.mp he'
    have hget := get?_of_mem hm'
    rw [heq, get?_of_mem he] at hget
    rwa [Option.some.inj hget]
  · exact fun hq => List.mem_map.mpr ⟨e, List.mem_filter.mpr ⟨he, hq⟩, rfl⟩

theorem retypeScalar_spec {outcome : Store × Nat} (h : outcome.1.Ready NoBorrowers)
    (scalar : String × String) :
    (retypeScalar outcome scalar).1.declarations = outcome.1.declarations.mapRows
      (fun _ v => if v.type.name = scalar.1 then v.sentAs scalar.2 else v) ∧
    (∀ id v, outcome.1.declarations.get? id = some v →
      (retypeScalar outcome scalar).1.nodes .declaration id = outcome.1.nodes .declaration id ++
        if v.type.name = scalar.1 then [scalarMarker scalar.1] else []) ∧
    (retypeScalar outcome scalar).2 = outcome.2 +
      (outcome.1.declarations.rows.filter (·.type.name == scalar.1)).length := by
  obtain ⟨s, count⟩ := outcome
  let found := s.declarations.entries.filter (·.2.type.name == scalar.1)
  have here : ∀ e ∈ found, s.declarations.contains e.1 ∧
      s.documents.contains e.2.document := by
    intro e he
    have hget := get?_of_mem (List.mem_filter.mp he).1
    exact ⟨contains_of_get? hget,
      (h.closed.declarations _ (mem_rows_of_get? hget)).1⟩
  have distinct : (found.map (·.1)).Nodup := by
    refine List.pairwise_map.mpr ((s.declarations.ordered.filter _).imp fun hlt => ?_)
    exact Int.ne_of_lt hlt
  obtain ⟨declarations, nodes⟩ := foldl_retype h scalar.1 scalar.2 found here distinct
  refine ⟨declarations.trans (mapRows_congr fun e he => ?_), fun id v hv => ?_, ?_⟩
  · have := mem_found_iff he (·.type.name == scalar.1)
    simp only [this, beq_iff_eq, found]
  · have := mem_found_iff (mem_of_get? hv) (·.type.name == scalar.1)
    refine (nodes id).trans ?_
    simp only [this, beq_iff_eq, found]
  · have := congrArg List.length
      (map_filter_entries s.declarations (·.type.name == scalar.1) id)
    rw [List.length_map, List.length_map] at this
    exact congrArg (count + ·) this

/-! ## All scalars -/

theorem sum_length_trail (scalar : String × String) (rest : NameMap String)
    (vs : List VariableRow) :
    (vs.map fun v => (trail (scalar :: rest) v.type.name).length).sum =
      (vs.filter (·.type.name == scalar.1)).length + ((vs.map fun v =>
        if v.type.name = scalar.1 then v.sentAs scalar.2 else v).map fun v =>
          (trail rest v.type.name).length).sum := by
  induction vs with
  | nil => rfl
  | cons v vs ih =>
    rw [List.map_cons, List.sum_cons, ih, trail, List.map_cons, List.map_cons, List.sum_cons]
    by_cases hv : v.type.name = scalar.1
    · rw [if_pos hv, if_pos hv, List.filter_cons, if_pos (beq_iff_eq.mpr hv), List.length_cons,
        List.length_cons, show (v.sentAs scalar.2).type.name = scalar.2 from rfl]
      omega
    · rw [if_neg hv, if_neg hv, List.filter_cons, if_neg (mt beq_iff_eq.mp hv)]
      omega

theorem foldl_retypeScalar (scalars : NameMap String) (outcome : Store × Nat)
    (h : outcome.1.Ready NoBorrowers) :
    (scalars.foldl retypeScalar outcome).1.declarations = outcome.1.declarations.mapRows
      (fun _ v => v.sentAs (destination scalars v.type.name)) ∧
    (∀ id v, outcome.1.declarations.get? id = some v →
      (scalars.foldl retypeScalar outcome).1.nodes .declaration id =
        outcome.1.nodes .declaration id ++ (trail scalars v.type.name).map scalarMarker) ∧
    (scalars.foldl retypeScalar outcome).2 = outcome.2 +
      (outcome.1.declarations.rows.map fun v => (trail scalars v.type.name).length).sum := by
  induction scalars generalizing outcome with
  | nil =>
    refine ⟨(mapRows_id _).symm, fun _ _ _ => (List.append_nil _).symm, ?_⟩
    simp only [trail, List.length_nil, List.map_const', List.sum_replicate_nat, Nat.mul_zero]
    rfl
  | cons scalar rest ih =>
    obtain ⟨declarations, nodes, count⟩ := retypeScalar_spec h scalar
    obtain ⟨declarations', nodes', count'⟩ :=
      ih (retypeScalar outcome scalar) (retypeScalar_marking h scalar).ready
    rw [List.foldl_cons]
    refine ⟨?_, fun id v hv => ?_, ?_⟩
    · rw [declarations', declarations, mapRows_mapRows]
      refine mapRows_congr fun e _ => ?_
      rw [destination]
      split <;> rfl
    · have hv' : (retypeScalar outcome scalar).1.declarations.get? id =
          some (if v.type.name = scalar.1 then v.sentAs scalar.2 else v) := by
        rw [declarations, get?_mapRows, hv]
        rfl
      rw [nodes' id _ hv', nodes id v hv, trail, List.append_assoc]
      congr 1
      by_cases ht : v.type.name = scalar.1
      · simp [ht, VariableRow.sentAs]
      · simp [ht]
    · have rows : (retypeScalar outcome scalar).1.declarations.rows =
          outcome.1.declarations.rows.map fun v =>
            if v.type.name = scalar.1 then v.sentAs scalar.2 else v := by
        simp [declarations, rows, entries_mapRows]
      rw [count', rows, count, sum_length_trail]
      omega

/-! ## Loaded variables -/

/-- Nothing is put on the variables of `t` that is not on those of `s`. -/
def SameMarks (s t : Store) : Prop := t.declarationDirectives = s.declarationDirectives

theorem addValue_sameMarks (s : Store) (owner? : Option Int) (p : Position)
    (expected? : Option TypeRef) (v : Value) :
    SameMarks s (s.addValue owner? p expected? v).1 := by
  rw [SameMarks, show _ = _ from addValue_revalues s owner? p expected? v]

theorem loadDirectives_sameMarks (site : Site) (hsite : site ≠ .declaration)
    (document owner : Int) (s : Store) (ds : List Directive) :
    SameMarks s (s.loadDirectives site document owner ds) := by
  have set : ∀ (t : Store) (T : DirectiveTables), SameMarks t (t.setDirectives site T) := by
    intro t T
    cases site with
    | declaration => exact absurd rfl hsite
    | _ => rfl
  refine List.foldlRecOn (motive := fun t => SameMarks s t) ds _ rfl fun t ht d _ => ?_
  refine List.foldlRecOn (motive := fun u => SameMarks s u) d.arguments _ ((set t _).trans ht)
    fun u hu a _ => ?_
  exact (set _ _).trans ((addValue_sameMarks ..).trans hu)

theorem foldl_loadFieldArgument_sameMarks (document selection : Int) (type? : Option String)
    (p : Position) (s : Store) (as : List (String × Literal)) :
    SameMarks s (as.foldl (loadFieldArgument document selection type? p) s) :=
  List.foldlRecOn (motive := fun t => SameMarks s t) as _ rfl
    fun _ ht _ _ => (addValue_sameMarks ..).trans ht

mutual

theorem loadSelection_sameMarks (document : Int) (scope? : Option String) (parent? : Option Int)
    (index : Int) (s : Store) : (x : Selection) →
    SameMarks s (loadSelection document scope? parent? index s x)
  | .field p label? name arguments directives selections => by
    rw [loadSelection]
    exact (loadSelections_sameMarks document _ _ 0 _ selections).trans
      ((loadDirectives_sameMarks .selection (by decide) ..).trans (foldl_loadFieldArgument_sameMarks ..))
  | .inline p condition? directives selections => by
    rw [loadSelection]
    exact (loadSelections_sameMarks document _ _ 0 _ selections).trans
      (loadDirectives_sameMarks .selection (by decide) ..)
  | .spread p name directives => by
    rw [loadSelection]
    exact loadDirectives_sameMarks .selection (by decide) ..

theorem loadSelections_sameMarks (document : Int) (scope? : Option String) (parent? : Option Int)
    (index : Int) (s : Store) : (xs : List Selection) →
    SameMarks s (loadSelections document scope? parent? index s xs)
  | [] => by
    rw [loadSelections]
    rfl
  | x :: rest => by
    rw [loadSelections]
    exact (loadSelections_sameMarks document scope? parent? (index + 1) _ rest).trans
      (loadSelection_sameMarks document scope? parent? index s x)

end

theorem declare_sameMarks (source : Source) (document : Int) (p : Position) (name label : String)
    (type : TypeRef) (default? : Option Value) (s : Store) :
    SameMarks s (s.declare source document p name label type default?).1 := by
  cases default? with
  | none => rfl
  | some v => exact addValue_sameMarks s (some document) p (some type) v

theorem loadDefinition_sameMarks (source : Source) (sourceId : Int) (s : Store) (d : Definition) :
    SameMarks s (s.loadDefinition source sourceId d).1 := by
  cases d with
  | operation o =>
    refine (loadSelections_sameMarks ..).trans ((loadDirectives_sameMarks .document (by decide) ..).trans ?_)
    exact loadEach_induction (P := SameMarks s) o.declarations
      (fun t v _ ht => (declare_sameMarks ..).trans ht) rfl
  | fragment f =>
    refine (loadSelections_sameMarks ..).trans ?_
    refine loadEach_induction (P := SameMarks s) _ (fun t d _ ht => ?_)
      (loadDirectives_sameMarks .document (by decide) ..)
    refine loadEach_induction (P := SameMarks s) _ (fun u a _ hu => ?_) ht
    rw [loadFragmentArgument]
    split
    · exact hu
    · exact (declare_sameMarks ..).trans hu

theorem loadSources_sameMarks (s : Store) : SameMarks s s.loadSources.1 := by
  refine loadEach_induction (P := SameMarks s) _ (fun t entry _ ht => ?_) rfl
  rw [loadSource]
  split
  · exact ht
  · split
    · split
      · exact (loadDefinition_sameMarks entry.2 entry.1 t (.fragment _)).trans ht
      · exact ht
    · exact loadEach_induction (P := SameMarks s) _
        (fun u d _ hu => (loadDefinition_sameMarks ..).trans hu) ht

end Store

namespace Project

open Framework Store

variable {p : Project} {s s' : Store} {scalars : NameMap String}

theorem After.unmarked (loaded : p.After .loading s) (id : Int) : s.nodes .declaration id = [] := by
  cases loaded with
  | @load s₀ prepared =>
    have marks : s₀.declarationDirectives = {} := by
      cases prepared with
      | prepare h =>
        rw [Project.prepare_rest h]
        rfl
    have same : (s₀.loadSources.1.directives .declaration) = {} :=
      (loadSources_sameMarks s₀).trans marks
    rw [nodes, same]
    rfl

/-- Each loaded variable of a runtime scalar is sent once, if nothing that it is sent as is taken
for a runtime scalar again. -/
theorem runtime_scalars_sent_once {count : Nat} (loaded : p.After .loading s)
    (ascending : NameMap.Ascending scalars)
    (once : ∀ v ∈ s.declarations.rows, SentOnce scalars v.type.name)
    (h : s.retypeScalars scalars = (s', count)) :
    (∀ id, s'.declarations.contains id = s.declarations.contains id) ∧
    (∀ id v, s.declarations.get? id = some v →
      match NameMap.get? v.type.name scalars with
      | some sentAs =>
        s'.declarations.get? id = some { v with type := ⟨sentAs, v.type.modifiers⟩ } ∧
        s'.directiveNodes .declaration id = .ok [scalarMarker v.type.name]
      | none =>
        s'.declarations.get? id = some v ∧ s'.directiveNodes .declaration id = .ok []) ∧
    (∀ value, s.values.contains value = true → s'.value value = s.value value) ∧
    count =
      (s.declarations.rows.filter fun v => (NameMap.get? v.type.name scalars).isSome).length := by
  have ready := loaded.keeps.1
  have marking := retypeScalars_marking ready scalars
  have values := retypeScalars_values s scalars
  have retypes := retypeScalars_retypes s scalars
  obtain ⟨declarations, nodes, counted⟩ := foldl_retypeScalar scalars (s, 0) ready
  rw [← retypeScalars, h] at declarations nodes counted
  rw [h] at marking values retypes
  dsimp only at declarations nodes counted marking values retypes
  refine ⟨marking.declarations, fun id v hv => ?_, fun value hvalue => ?_, ?_⟩
  · have hget : s'.declarations.get? id = some (v.sentAs (destination scalars v.type.name)) := by
      rw [declarations, Table.get?_mapRows, hv]
      rfl
    have hnodes := nodes id v hv
    rw [loaded.unmarked, List.nil_append] at hnodes
    rw [marking.ready.directiveNodes_eq, hnodes, hget]
    split
    · next sentAs hscalar =>
      obtain ⟨way, last⟩ := trail_of_get?_eq_some ascending
        (once v (Table.mem_rows_of_get? hv)) hscalar
      rw [way, last]
      exact ⟨rfl, rfl⟩
    · next hscalar =>
      obtain ⟨way, last⟩ := trail_of_get?_eq_none hscalar
      rw [way, last]
      exact ⟨rfl, rfl⟩
  · have links : s'.valueLinks = s.valueLinks := by rw [retypes]
    rw [ready.value_eq_read hvalue, marking.ready.value_eq_read (values.contains hvalue),
      ready.read_grows marking.ready.toSound values links hvalue]
  · rw [show count = _ from counted, Nat.zero_add]
    have lengths : ∀ v ∈ s.declarations.rows, (trail scalars v.type.name).length =
        if (NameMap.get? v.type.name scalars).isSome = true then 1 else 0 := by
      intro v hv
      cases hscalar : NameMap.get? v.type.name scalars with
      | none => rw [(trail_of_get?_eq_none hscalar).1]; rfl
      | some sentAs => rw [(trail_of_get?_eq_some ascending (once v hv) hscalar).1]; rfl
    rw [List.map_congr_left lengths, ← List.countP_eq_length_filter]
    generalize s.declarations.rows = vs
    induction vs with
    | nil => rfl
    | cons v vs ih => rw [List.map_cons, List.sum_cons, ih, List.countP_cons, Nat.add_comm]

/-- One of two variables is of a runtime scalar. -/
def turnstile : Project where
  config := { runtimeScalars := [("Token", "String")] }
  schema := "scalar Token type Query \x7b user(id: ID, token: String): User \x7d
    type User \x7b id: ID \x7d"
  sources := [{
    filepath := "turnstile.graphql"
    content := "query Q($token: Token!, $id: ID) \x7b user(id: $id, token: $token) \x7b id \x7d \x7d" }]

set_option maxRecDepth 10000 in
def turnstileSpelling : Spelling turnstile := ⟨_, [_], rfl, rfl⟩

set_option maxRecDepth 100000 in
theorem turnstile_types : (turnstileSpelling.analysis?.any fun e =>
    e.1.declarations.rows.map (·.type) = [⟨"Token", "!"⟩, ⟨"ID", ""⟩]) := by
  decide +kernel

theorem turnstile_scalars_sent_once : ∃ s s' id v, turnstile.After .loading s ∧
    s.retypeScalars turnstile.config.runtimeScalars = (s', 1) ∧
    s.declarations.get? id = some v ∧ v.type = ⟨"Token", "!"⟩ ∧
    s'.declarations.get? id = some { v with type := ⟨"String", "!"⟩ } ∧
    s'.directiveNodes .declaration id = .ok [scalarMarker "Token"] := by
  obtain ⟨s₀, _, prepared, _, check⟩ := turnstileSpelling.exists_of_any turnstile_types
  have loaded : turnstile.After .loading s₀.loadSources.1 := .load (.prepare prepared)
  have types := of_decide_eq_true check
  dsimp only at types
  generalize s₀.loadSources.1 = s at loaded types
  obtain ⟨v, rest, hrows, htype, _⟩ := List.map_eq_cons_iff.mp types
  obtain ⟨id, hv⟩ := Table.mem_rows_iff.mp (hrows ▸ List.mem_cons_self : v ∈ s.declarations.rows)
  have once : ∀ w ∈ s.declarations.rows, SentOnce turnstile.config.runtimeScalars w.type.name := by
    intro w hw
    have hw := List.mem_map_of_mem (f := (·.type)) hw
    rw [types] at hw
    have key : ∀ type ∈ [(⟨"Token", "!"⟩ : TypeRef), ⟨"ID", ""⟩],
      SentOnce turnstile.config.runtimeScalars type.name := by decide
    exact key _ hw
  obtain ⟨_, sent, _, count⟩ := runtime_scalars_sent_once loaded (by decide) once rfl
  have one : (s.declarations.rows.filter fun w =>
      (NameMap.get? w.type.name turnstile.config.runtimeScalars).isSome).length = 1 := by
    have := congrArg (fun types : List TypeRef => (types.filter fun type =>
      (NameMap.get? type.name turnstile.config.runtimeScalars).isSome).length) types
    simp only [List.filter_map, List.length_map] at this
    exact this
  have here := sent id v hv
  rw [htype] at here
  exact ⟨s, _, id, v, loaded, Prod.ext rfl (count.trans one), hv, htype, here.1, here.2⟩

/-! ## A scalar that is sent as a runtime scalar -/

/-- What `Alpha` is sent as is a runtime scalar itself. -/
def relay : Project where
  config := { runtimeScalars := [("Alpha", "Beta"), ("Beta", "Gamma")] }
  schema := "scalar Alpha scalar Beta scalar Gamma type Query \x7b find(x: Gamma): Int \x7d"
  sources := [{
    filepath := "relay.graphql"
    content := "query Q($x: Alpha!) \x7b find(x: $x) \x7d" }]

set_option maxRecDepth 10000 in
def relaySpelling : Spelling relay := ⟨_, [_], rfl, rfl⟩

set_option maxRecDepth 100000 in
theorem relay_types : (relaySpelling.analysis?.any fun e =>
    e.1.declarations.rows.map (·.type) = [⟨"Alpha", "!"⟩]) := by
  decide +kernel

/-- The only variable is sent twice, gets two markers and is counted twice. -/
theorem relay_sends_twice : ∃ s s' id v, relay.After .loading s ∧
    NameMap.Ascending relay.config.runtimeScalars ∧ s.declarations.rows = [v] ∧
    s.declarations.get? id = some v ∧
    NameMap.get? v.type.name relay.config.runtimeScalars = some "Beta" ∧
    s.retypeScalars relay.config.runtimeScalars = (s', 2) ∧
    s'.declarations.get? id = some { v with type := ⟨"Gamma", "!"⟩ } ∧
    s'.directiveNodes .declaration id = .ok [scalarMarker "Alpha", scalarMarker "Beta"] := by
  obtain ⟨s₀, _, prepared, _, check⟩ := relaySpelling.exists_of_any relay_types
  have loaded : relay.After .loading s₀.loadSources.1 := .load (.prepare prepared)
  have types := of_decide_eq_true check
  dsimp only at types
  generalize s₀.loadSources.1 = s at loaded types
  obtain ⟨v, hrows, htype⟩ := List.map_eq_singleton_iff.mp types
  obtain ⟨id, hv⟩ := Table.mem_rows_iff.mp (hrows ▸ List.mem_cons_self : v ∈ s.declarations.rows)
  have ready := loaded.keeps.1
  have marking := retypeScalars_marking ready relay.config.runtimeScalars
  obtain ⟨declarations, nodes, counted⟩ :=
    foldl_retypeScalar relay.config.runtimeScalars (s, 0) ready
  refine ⟨s, _, id, v, loaded, by decide, hrows, hv, by rw [htype]; decide, Prod.ext rfl ?_, ?_, ?_⟩
  · refine counted.trans ?_
    rw [hrows, List.map_singleton, htype]
    rfl
  · refine (congrArg (·.get? id) declarations).trans ?_
    rw [Table.get?_mapRows, hv, Option.map_some, VariableRow.sentAs, htype]
    rfl
  · rw [marking.ready.directiveNodes_eq]
    refine congrArg Except.ok ((nodes id v hv).trans ?_)
    rw [loaded.unmarked, htype]
    rfl

end Project

end GraphDoc
