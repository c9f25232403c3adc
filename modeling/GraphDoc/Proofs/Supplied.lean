import GraphDoc.Proofs.Components

/-!
# Required arguments of spreads

An argument whose type is not null has to be given by the spreads of its fragment. Validation sees
to this for the spreads that documents are written with: what they apply is not null, and what they
leave out has a default that is not null. Rewriting leaves such spreads as they are.
-/

set_option autoImplicit false

namespace GraphDoc

open Table

theorem Value.kind_ne_null_of_check {v : Value} {modifiers : String}
    (required : Modifiers.isNonNull modifiers) (h : v.check modifiers = .ok ()) :
    v.kind ≠ .null := by
  intro null
  rw [Modifiers.isNonNull, beq_iff_eq, ← List.head?_reverse] at required
  obtain ⟨inner, hinner⟩ := List.head?_eq_some_iff.mp required
  simp [Value.check, hinner, Value.checkOuter, null] at h

namespace Store

open Grammar

variable {s s' : Store} {G : Int → Prop}

/-! ## Defaults -/

/-- The default of a variable is not null if its type is not. -/
def Fitted (s : Store) : Prop := ∀ v ∈ s.declarations.rows, v.type.isNonNull = true →
  ∀ d, v.default? = some d → (s.read d).kind ≠ .null

theorem exists_clean_of_loadEach {α : Type} {step : Store → α → Store × Diagnostics} {xs : List α}
    (h : (loadEach step s xs).2 = []) {a : α} (ha : a ∈ xs) : ∃ t, (step t a).2 = [] := by
  induction xs generalizing s with
  | nil => cases ha
  | cons b rest ih =>
    obtain ⟨first, later⟩ := List.append_eq_nil_iff.mp h
    rcases List.mem_cons.mp ha with rfl | ha
    · exact ⟨s, first⟩
    · exact ih later ha

theorem check_of_declare {source : Source} {document : Int} {p : Position} {name label : String}
    {type : TypeRef} {default? : Option Value}
    (h : (s.declare source document p name label type default?).2 = []) {value : Value}
    (hvalue : default? = some value) : value.check type.modifiers = .ok () := by
  subst hvalue
  cases hc : value.check type.modifiers with
  | ok => rfl
  | error misfit => simp [declare, hc] at h

theorem check_of_loadDefinition {source : Source} {sourceId : Int} {d : Definition}
    (h : (s.loadDefinition source sourceId d).2 = []) {schema : Schema}
    {a : String × TypeRef × Option Value} (ha : a ∈ (d.outline schema sourceId).declarations)
    {value : Value} (hvalue : a.2.2 = some value) : value.check a.2.1.modifiers = .ok () := by
  cases d with
  | operation o =>
    obtain ⟨_, more⟩ := List.append_eq_nil_iff.mp h
    obtain ⟨v, hv, rfl⟩ := List.mem_map.mp ha
    obtain ⟨t, ht⟩ := exists_clean_of_loadEach more hv
    exact check_of_declare ht hvalue
  | fragment f =>
    obtain ⟨d, hd, ha⟩ := List.mem_flatMap.mp ha
    obtain ⟨x, hx, ha⟩ := List.mem_flatMap.mp ha
    obtain ⟨t, ht⟩ := exists_clean_of_loadEach h hd
    obtain ⟨u, hu⟩ := exists_clean_of_loadEach ht hx
    rw [declaredArgument] at ha
    rw [loadFragmentArgument] at hu
    split at ha
    · cases ha
    · next type htype =>
      obtain rfl := List.mem_singleton.mp ha
      simp only [htype] at hu
      exact check_of_declare hu hvalue

theorem exists_clean_definition {e : Int × Source} (h : (s.loadSource e).2 = []) {d : Definition}
    (hd : d ∈ e.2.definitions) : ∃ t : Store, (t.loadDefinition e.2 e.1 d).2 = [] := by
  rw [Source.definitions] at hd
  rw [loadSource] at h
  split at hd
  · cases hd
  · next ds hparse =>
    simp only [hparse] at h
    split at hd
    · next hinline =>
      rw [if_pos hinline] at h
      split at hd
      · next f hf =>
        obtain rfl := List.mem_singleton.mp hd
        simp only [hf] at h
        exact ⟨s, h⟩
      · cases hd
    · next hinline =>
      rw [if_neg hinline] at h
      exact exists_clean_of_loadEach h hd

theorem loadSources_fitted (hs : s.Closed) (new : s.documents.entries = [])
    (sound : s.loadSources.1.Sound G) (clean : s.loadSources.2 = []) :
    s.loadSources.1.Fitted := by
  intro v hv required d hd
  obtain ⟨id, hid⟩ := mem_rows_iff.mp hv
  obtain ⟨here, values⟩ := sound.closed.declarations v hv
  obtain ⟨row, hrow⟩ := contains_iff.mp here
  obtain ⟨e, he, definition, hm, _, _, reads⟩ := exists_definition hs new hrow
  obtain ⟨a, ha, hread⟩ := exists_mem_of_mapM reads (mem_variablesOf.mpr ⟨hid, rfl⟩)
  obtain ⟨t, ht⟩ := exists_clean_of_loadEach clean he
  obtain ⟨u, hu⟩ := exists_clean_definition ht hm
  -- The definition says what the row does.
  have hread : (do return (v.name, v.type, some (← s.loadSources.1.value d)) :
      Except Failure _) = .ok a := by
    simpa only [readVariable, hd] using hread
  rw [sound.value_eq_read (values d hd)] at hread
  cases hread
  exact Value.kind_ne_null_of_check required (check_of_loadDefinition hu ha rfl)

theorem Agrees.fitted (h : Agrees s s') (hs : s.Fitted) : s'.Fitted := by
  intro v' hv' required d' hd'
  obtain ⟨id, hid⟩ := mem_rows_iff.mp hv'
  obtain ⟨v, hv, _, _, hmodifiers, hdefault⟩ := h.exists_declaration hid
  rw [hd'] at hdefault
  obtain ⟨d, hd, hread⟩ := Option.map_eq_some_iff.mp hdefault.symm
  rw [← hread]
  refine hs v (mem_rows_of_get? hv) ?_ d hd
  rw [TypeRef.isNonNull, ← hmodifiers]
  exact required

/-! ## What spreads apply -/

/-- What the `@with` directives on a selection apply. -/
def passed (s : Store) (x : Int) : List (String × Value) :=
  ((s.nodes .selection x).filter (·.name = Framework.withTag)).flatMap (·.arguments)

/-- The fragment that a selection spreads. -/
def target? (s : Store) (x : Int) : Option (Int × DocumentRow) :=
  (s.selections.get? x).bind fun row =>
    if row.kind = .fragment then s.findDocument row.name .fragment else none

/-- The argument belongs to the fragment that `x` spreads, and its type is not null. -/
def Requires (s : Store) (x : Int) (v : VariableRow) : Prop :=
  v.type.isNonNull = true ∧ ∃ f ∈ s.target? x, v.document = f.1

/-- Nothing that `x` applies to `v` is null, and unless it applies something `v` has a default that
is not null. -/
def Supplies (s : Store) (x : Int) (v : VariableRow) : Prop :=
  (∀ a ∈ s.passed x, a.1 = v.name → a.2.kind ≠ .null) ∧
    ((∃ a ∈ s.passed x, a.1 = v.name) ∨ ∃ d ∈ v.default?, (s.read d).kind ≠ .null)

/-- Selection `x` supplies all arguments that its fragment requires. -/
def Supplied (s : Store) (x : Int) : Prop :=
  ∀ v ∈ s.declarations.rows, s.Requires x v → s.Supplies x v

def IsFragment (s : Store) (d : Int) : Prop := ∃ row ∈ s.documents.get? d, row.kind = .fragment

/-- The arguments of fragment `d` that `x`, as one of its selections, forwards to required arguments
are required themselves. -/
def Forwards (s : Store) (d x : Int) : Prop :=
  s.IsFragment d → ∀ v ∈ s.declarations.rows, s.Requires x v →
    ∀ a ∈ s.passed x, a.1 = v.name → a.2.kind = .var →
      ∀ w ∈ s.declarations.rows, w.document = d → w.name = a.2.raw → w.type.isNonNull = true

instance (s : Store) (x : Int) (v : VariableRow) : Decidable (s.Requires x v) :=
  inferInstanceAs (Decidable (_ ∧ _))

instance (s : Store) (x : Int) (v : VariableRow) : Decidable (s.Supplies x v) :=
  inferInstanceAs (Decidable (_ ∧ _))

instance (s : Store) (x : Int) : Decidable (s.Supplied x) :=
  inferInstanceAs (Decidable (∀ v ∈ s.declarations.rows, _))

instance (s : Store) (d : Int) : Decidable (s.IsFragment d) :=
  inferInstanceAs (Decidable (∃ row ∈ s.documents.get? d, _))

instance (s : Store) (d x : Int) : Decidable (s.Forwards d x) :=
  inferInstanceAs (Decidable (s.IsFragment d → _))

theorem target?_eq_some {x : Int} {f : Int × DocumentRow} : s.target? x = some f ↔
    ∃ row, s.selections.get? x = some row ∧ row.kind = .fragment ∧
      s.findDocument row.name .fragment = some f := by
  simp only [target?, Option.bind_eq_some_iff, Option.ite_none_right_eq_some]

theorem mem_passed {x : Int} {a : String × Value} : a ∈ s.passed x ↔
    ∃ u ∈ (s.directives .selection).usesOf x, u.2.name = Framework.withTag ∧
      ∃ b ∈ (s.directives .selection).argumentsOf u.1, (b.2.name, s.read b.2.value) = a := by
  simp only [passed, nodes, List.mem_flatMap, List.mem_filter, List.mem_map, decide_eq_true_eq]
  constructor
  · rintro ⟨_, ⟨⟨u, hu, rfl⟩, hname⟩, ha⟩
    exact ⟨u, hu, hname, List.mem_map.mp ha⟩
  · rintro ⟨u, hu, hname, ha⟩
    exact ⟨_, ⟨⟨u, hu, rfl⟩, hname⟩, List.mem_map.mpr ha⟩

theorem withArguments_eq_ok (hs : s.Closed) {u : Use} (hu : u ∈ s.uses)
    {found : Option (List (String × Int × Location))}
    (h : Rule.withArguments s u.id = .ok found) :
    (∀ b ∈ found.getD [], (b.1, s.read b.2.1) ∈ s.passed u.id ∧
      s.values.contains b.2.1) ∧
    ∀ a ∈ s.passed u.id, ∃ b ∈ found.getD [], (b.1, s.read b.2.1) = a := by
  have hwith : ∀ e ∈ (s.directives .selection).usesOf u.id, e.2.name = Framework.withTag →
      e ∈ ((s.directives .selection).usesOf u.id).filter (·.2.name == Framework.withTag) :=
    fun e he hname => List.mem_filter.mpr ⟨he, beq_iff_eq.mpr hname⟩
  rw [Rule.withArguments] at h
  split at h
  · next hempty =>
    cases h
    refine ⟨nofun, fun a ha => ?_⟩
    obtain ⟨e, he, hname, _⟩ := mem_passed.mp ha
    have he := hwith e he hname
    rw [List.isEmpty_iff.mp hempty] at he
    cases he
  · split at h
    · next hnone => exact absurd (decide_eq_true rfl) (List.find?_eq_none.mp hnone u hu)
    · obtain ⟨located, hlocated, h⟩ := bind_eq_ok.mp h
      cases h
      constructor
      · intro b hb
        obtain ⟨e, he, hb⟩ := exists_of_mem_mapM hlocated hb
        obtain ⟨_, _, hb⟩ := bind_eq_ok.mp hb
        cases hb
        obtain ⟨d, hd, he⟩ := List.mem_flatMap.mp he
        obtain ⟨hd, hname⟩ := List.mem_filter.mp hd
        refine ⟨mem_passed.mpr ⟨d, hd, beq_iff_eq.mp hname, e, he, rfl⟩, ?_⟩
        exact ((hs.directives .selection).arguments _
          (mem_rows_of_get? (get?_of_mem (List.mem_filter.mp he).1))).2
      · intro a ha
        obtain ⟨d, hd, hname, e, he, rfl⟩ := mem_passed.mp ha
        obtain ⟨b, hb, hfound⟩ := exists_mem_of_mapM hlocated
          (List.mem_flatMap.mpr ⟨d, hwith d hd hname, he⟩)
        obtain ⟨_, _, hfound⟩ := bind_eq_ok.mp hfound
        cases hfound
        exact ⟨_, hb, rfl⟩

theorem eq_nil_of_flatten_eq_nil {α β ε : Type} {f : α → Except ε (List β)} {l : List α}
    (h : (do return (← l.mapM f).flatten : Except ε (List β)) = .ok []) {a : α} (ha : a ∈ l) :
    f a = .ok [] := by
  obtain ⟨found, hfound, h⟩ := bind_eq_ok.mp h
  obtain ⟨b, hb, hf⟩ := exists_mem_of_mapM hfound ha
  rw [hf, List.flatten_eq_nil_iff.mp (Except.ok.inj h) b hb]

section

variable {u : Use} (hu : u ∈ Rule.spreadsInOrder s) {declared : List VariableRow}
  (leads : Rule.declaredVariables? s u.selection.name = some declared)
  {found : Option (List (String × Int × Location))}
  (applied : Rule.withArguments s u.id = .ok found) {config : Config}
include hu leads applied

theorem applies_of_missingWith (h : Rule.missingWith.run config s = .ok (s', []))
    {v : VariableRow} (hv : v ∈ declared) (required : Rule.isRequired v) :
    found.getD [] ≠ [] := by
  obtain ⟨_, hcheck, h⟩ := bind_eq_ok.mp h
  cases h
  have key := eq_nil_of_flatten_eq_nil hcheck hu
  have any : declared.any Rule.isRequired := List.any_eq_true.mpr ⟨v, hv, required⟩
  simp only [leads, any, applied, Bool.not_true, Bool.false_eq_true, if_false] at key
  intro hnone
  obtain ⟨_, hfound, key⟩ := bind_eq_ok.mp key
  cases hfound
  rw [hnone, List.isEmpty_nil, if_pos rfl] at key
  obtain ⟨_, _, key⟩ := bind_eq_ok.mp key
  cases key

theorem fits_of_withValues (hs : s.Sound G) (h : Rule.withValues.run config s = .ok (s', [])) :
    (∀ b ∈ found.getD [], s.values.contains b.2.1 → ∃ v ∈ declared, v.name = b.1 ∧
      (s.read b.2.1).check v.type.modifiers = .ok ()) ∧
    ∀ v ∈ declared, Rule.isRequired v → found.getD [] ≠ [] →
      ∃ b ∈ found.getD [], b.1 = v.name := by
  obtain ⟨_, hcheck, h⟩ := bind_eq_ok.mp h
  cases h
  have key := eq_nil_of_flatten_eq_nil hcheck hu
  cases found with
  | none => exact ⟨nofun, fun _ _ _ hnone => absurd rfl hnone⟩
  | some arguments =>
    simp only [Rule.checkSpread, leads, applied] at key
    obtain ⟨_, harguments, key⟩ := bind_eq_ok.mp key
    cases harguments
    obtain ⟨problems, hproblems, key⟩ := bind_eq_ok.mp key
    obtain ⟨absent, habsent, key⟩ := bind_eq_ok.mp key
    obtain ⟨fine, rfl⟩ := List.append_eq_nil_iff.mp (Except.ok.inj key)
    constructor
    · intro b hb hvalue
      obtain ⟨r, hr, hproblem⟩ := exists_mem_of_mapM hproblems hb
      rw [List.flatten_eq_nil_iff.mp fine r hr] at hproblem
      obtain ⟨problem?, hproblem?, hproblem⟩ := bind_eq_ok.mp hproblem
      cases problem? with
      | some message => cases hproblem
      | none =>
        rw [Rule.argumentProblem?] at hproblem?
        split at hproblem?
        · cases hproblem?
        · next v hfind =>
          have hname := List.find?_some hfind
          refine ⟨v, List.mem_of_find?_eq_some hfind, beq_iff_eq.mp hname, ?_⟩
          obtain ⟨value, hread, hproblem?⟩ := bind_eq_ok.mp hproblem?
          rw [hs.value_eq_read hvalue] at hread
          cases hread
          split at hproblem?
          · next hfits => exact hfits
          · cases hproblem?
    · intro v hv required _
      have covered := List.filter_eq_nil_iff.mp (eq_nil_of_mapM_eq_nil habsent) v hv
      rw [required, Bool.true_and, Bool.not_eq_true', Bool.not_eq_false, List.any_eq_true] at covered
      obtain ⟨b, hb, hname⟩ := covered
      exact ⟨b, hb, beq_iff_eq.mp hname⟩

end

theorem mem_map_variablesOf {d : Int} {v : VariableRow} :
    v ∈ (s.variablesOf d).map (·.2) ↔ v ∈ s.declarations.rows ∧ v.document = d := by
  constructor
  · intro hv
    obtain ⟨⟨id, v⟩, hm, rfl⟩ := List.mem_map.mp hv
    obtain ⟨hget, hdoc⟩ := mem_variablesOf.mp hm
    exact ⟨mem_rows_of_get? hget, hdoc⟩
  · rintro ⟨hv, hdoc⟩
    obtain ⟨id, hget⟩ := mem_rows_iff.mp hv
    exact List.mem_map.mpr ⟨(id, v), mem_variablesOf.mpr ⟨hget, hdoc⟩, rfl⟩

/-- A spread on which nothing is reported supplies a required argument that is declared once. -/
theorem supplies_of_rules (hs : s.Sound G) (fitted : s.Fitted) {config : Config} {s₁ s₂ : Store}
    (missing : Rule.missingWith.run config s = .ok (s₁, []))
    (values : Rule.withValues.run config s = .ok (s₂, [])) {q : Placement}
    (hq : q ∈ s.placements.rows) {v : VariableRow} (hv : v ∈ s.declarations.rows)
    (required : s.Requires q.child v)
    (once : ∀ w ∈ s.declarations.rows, w.document = v.document → w.name = v.name → w = v) :
    s.Supplies q.child v := by
  obtain ⟨nonNull, f, hf, hdoc⟩ := required
  obtain ⟨row, hrow, hk, hfind⟩ := target?_eq_some.mp hf
  obtain ⟨u, hu, huse, hid, rfl⟩ := exists_mem_spreadsInOrder
    (fun q hq => (hs.closed.placements q hq).2.2) hq hrow hk
  have declares : Rule.declaredVariables? s u.selection.name =
      some ((s.variablesOf f.1).map (·.2)) := by
    rw [Rule.declaredVariables?, hfind]
    rfl
  -- The rule on values looks at the arguments first.
  obtain ⟨found, applied⟩ : ∃ found, Rule.withArguments s u.id = .ok found := by
    obtain ⟨_, hcheck, h⟩ := bind_eq_ok.mp values
    cases h
    have key := eq_nil_of_flatten_eq_nil hcheck hu
    obtain ⟨found, applied, _⟩ := bind_eq_ok.mp key
    exact ⟨found, applied⟩
  obtain ⟨mem_passed, exists_passed⟩ := withArguments_eq_ok hs.closed huse applied
  obtain ⟨fit, cover⟩ := fits_of_withValues hu declares applied hs values
  rw [hid] at mem_passed exists_passed
  constructor
  · intro a ha hname
    obtain ⟨b, hb, rfl⟩ := exists_passed a ha
    obtain ⟨w, hw, hwname, hfits⟩ := fit b hb (mem_passed b hb).2
    obtain ⟨hw, hwdoc⟩ := mem_map_variablesOf.mp hw
    obtain rfl := once w hw (hwdoc.trans hdoc.symm) (hwname.trans hname)
    exact Value.kind_ne_null_of_check nonNull hfits
  · cases hdefault : v.default? with
    | some d => exact .inr ⟨d, rfl, fitted v hv nonNull d hdefault⟩
    | none =>
      have required : Rule.isRequired v := by
        rw [Rule.isRequired, nonNull, hdefault]
        rfl
      have hv := mem_map_variablesOf.mpr ⟨hv, hdoc⟩
      obtain ⟨b, hb, hname⟩ := cover v hv required
        (applies_of_missingWith hu declares applied missing hv required)
      exact .inl ⟨_, (mem_passed b hb).1, hname⟩

/-! ## Rules and lists -/

theorem Relists.missingWith (h : Relists s s') {config : Config} {t : Store}
    (hr : Rule.missingWith.run config s = .ok (t, [])) :
    Rule.missingWith.run config s' = .ok (s', []) := by
  obtain ⟨_, hcheck, hr⟩ := bind_eq_ok.mp hr
  cases hr
  refine bind_eq_ok.mpr ⟨[], ?_, rfl⟩
  rw [show s' = { s with lists := s'.lists } from h]
  exact hcheck

theorem Relists.withValues (h : Relists s s') {config : Config} {t : Store}
    (hr : Rule.withValues.run config s = .ok (t, [])) :
    Rule.withValues.run config s' = .ok (s', []) := by
  obtain ⟨_, hcheck, hr⟩ := bind_eq_ok.mp hr
  cases hr
  refine bind_eq_ok.mpr ⟨[], ?_, rfl⟩
  have same : s' = { s with lists := s'.lists } := h
  have values : ∀ id, s'.value id = s.value id :=
    value_of_tables (by rw [same]) (by rw [same])
  have problems : Rule.argumentProblem? s' = Rule.argumentProblem? s := by
    funext fragment declared name value
    rw [Rule.argumentProblem?, Rule.argumentProblem?, values]
  have spreads : Rule.checkSpread s' = Rule.checkSpread s := by
    funext u
    rw [Rule.checkSpread, Rule.checkSpread, problems]
    generalize Rule.argumentProblem? s = problem?
    rw [same]
    rfl
  have order : Rule.spreadsInOrder s' = Rule.spreadsInOrder s := by
    rw [same]
    rfl
  obtain ⟨found, hfound, hnone⟩ := bind_eq_ok.mp hcheck
  refine bind_eq_ok.mpr ⟨found, ?_, hnone⟩
  rw [spreads, order]
  exact hfound

/-- No fragment declares an argument twice. -/
def DeclaresOnce (s : Store) : Prop := ∀ e ∈ s.documents.entries, e.2.kind = .fragment →
  (s.declaredNames e.1).Nodup

instance (s : Store) : Decidable s.DeclaresOnce :=
  inferInstanceAs (Decidable (∀ e ∈ s.documents.entries, _))

theorem DeclaresOnce.eq (h : s.DeclaresOnce) {f : Int × DocumentRow} {name : String}
    (hf : s.findDocument name .fragment = some f) {id id' : Int} {v v' : VariableRow}
    (hv : s.declarations.get? id = some v) (hdoc : v.document = f.1)
    (hv' : s.declarations.get? id' = some v') (hdoc' : v'.document = f.1)
    (hname : v'.name = v.name) : id' = id := by
  obtain ⟨hrow, _, hk⟩ := findDocument_eq_some hf
  have key := List.inj_on_of_nodup_map (h f (mem_of_get? hrow) hk)
    (mem_variablesOf.mpr ⟨hv', hdoc'⟩) (mem_variablesOf.mpr ⟨hv, hdoc⟩) hname
  exact congrArg (·.1) key

end Store

namespace Project

open Store

variable {p : Project} {s₀ s : Store}

theorem analyse_fitted (prepared : p.prepare = .ok s₀) (analysed : p.analyse s₀ = .ok (s, [])) :
    s.Fitted := by
  have ready := (prepare_ready prepared).1
  exact (analyse_agrees prepared analysed).1.fitted (loadSources_fitted ready.closed
    (by rw [prepare_rest prepared]; rfl) (loadSources_ready ready).ready.toSound
    (analyse_clean analysed).1)

theorem spread_rewrite (ready : s.Ready NoBorrowers) {x : Int} {row : SelectionRow}
    (hrow : s.selections.get? x = some row) (hk : row.kind = .fragment) :
    (p.rewrite s).selections.get? x = some row ∧
      (p.rewrite s).nodes .selection x = s.nodes .selection x := by
  obtain ⟨row', nodes, _⟩ := generateListOperations_on ready p.config (contains_of_get? hrow)
  have hrow' : (p.generated s).selections.get? x = some row := row'.trans hrow
  -- Only fields become spreads.
  have same := sameOn_rewrite ready (p := p) (x := x) fun e he hex => by
    obtain ⟨r, _, hr, _, hfield, _⟩ := mem_componentSelections_iff.mp he
    rw [hex, hrow'] at hr
    cases hr
    rw [hk] at hfield
    cases hfield
  exact ⟨same.row.trans hrow', same.nodes.trans nodes⟩

/-- A required argument of a spread that was written was there when the spread was validated,
perhaps without the default that pagination gave it. -/
theorem requires_of_rewrite (ready : s.Ready NoBorrowers) {x : Int} {row : SelectionRow}
    (hrow : s.selections.get? x = some row) (hk : row.kind = .fragment) {id : Int}
    {v : VariableRow} (hid : (p.rewrite s).declarations.get? id = some v)
    (required : (p.rewrite s).Requires x v) : ∃ v₀, s.declarations.get? id = some v₀ ∧
      v = { v₀ with default? := v₀.default?.orElse fun _ => v.default? } ∧ s.Requires x v₀ := by
  obtain ⟨nonNull, f, hf, hdoc⟩ := required
  obtain ⟨row', hrow', _, hfind⟩ := target?_eq_some.mp hf
  obtain rfl := Option.some.inj ((spread_rewrite ready hrow hk).1.symm.trans hrow')
  rw [declarations_rewrite ready] at hid
  obtain ⟨v₀, hv₀, hsame⟩ := (preparePagination_pages p.config s).nonNull id v hid nonNull
  have hdoc₀ : v₀.document = f.1 := (congrArg VariableRow.document hsame).symm.trans hdoc
  have htype : v₀.type = v.type := (congrArg VariableRow.type hsame).symm
  refine ⟨v₀, hv₀, hsame, htype ▸ nonNull, f, target?_eq_some.mpr ⟨row, hrow, hk, ?_⟩, hdoc₀⟩
  -- The documents that lists bring declare nothing.
  have hdocuments : (p.rewrite s).documents = (p.generated s).documents := by
    rw [(spreads_rewrite ready).rest]
  rw [findDocument, hdocuments] at hfind
  rcases (generated_grows ready).1.find?_or hfind with hfind | ⟨hnew, _⟩
  · exact hfind
  · have := le_issued_of_contains
      (ready.closed.declarations v₀ (mem_rows_of_get? hv₀)).1
    omega

theorem placed_of_rewrite (ready : s.Ready NoBorrowers) {q : Placement}
    (hq : q ∈ (p.rewrite s).placements.rows) (hx : s.selections.contains q.child) :
    ∃ q₀ ∈ s.placements.rows, q₀.child = q.child := by
  have hplacements : (p.rewrite s).placements = (p.generated s).placements := by
    rw [(spreads_rewrite ready).rest]
  rcases (generated_grows ready).2.1.rows_or (hplacements ▸ hq) with hq | hq
  · exact ⟨q, hq, rfl⟩
  · have := le_issued_of_contains hx
    exact hq.child.resolve_left (by omega)

theorem rewrite_supplied (prepared : p.prepare = .ok s₀) (analysed : p.analyse s₀ = .ok (s, []))
    (once : (p.rewrite s).DeclaresOnce) {q : Placement} (hq : q ∈ (p.rewrite s).placements.rows)
    {row : SelectionRow} (hrow : s.selections.get? q.child = some row)
    (hk : row.kind = .fragment) : (p.rewrite s).Supplied q.child := by
  obtain ⟨ready₀, hc⟩ := prepare_ready prepared
  have ready : s.Ready NoBorrowers := analyse_ready ready₀ hc analysed
  intro v hv required
  obtain ⟨id, hid⟩ := mem_rows_iff.mp hv
  obtain ⟨v₀, hv₀, hsame, required₀⟩ := requires_of_rewrite ready hrow hk hid required
  obtain ⟨q₀, hq₀, hchild⟩ := placed_of_rewrite ready hq (contains_of_get? hrow)
  have hname : v₀.name = v.name := (congrArg VariableRow.name hsame).symm
  have hmem₀ := mem_rows_of_get? hv₀
  obtain ⟨u₁, _, repages₁, missing⟩ := rule_clean analysed (r := Rule.missingWith)
    (by simp [Rule.sweeps, Rule.rules])
  obtain ⟨u₂, _, repages₂, values⟩ := rule_clean analysed (r := Rule.withValues)
    (by simp [Rule.sweeps, Rule.rules])
  have once₀ : ∀ w ∈ s.declarations.rows, w.document = v₀.document → w.name = v₀.name →
      w = v₀ := by
    intro w hw hwdoc hwname
    obtain ⟨id', hw⟩ := mem_rows_iff.mp hw
    obtain ⟨w', hw', hwdoc', hwname'⟩ := (preparePagination_pages p.config s).declared id' w hw
    rw [← declarations_rewrite ready] at hw'
    obtain ⟨_, f, hf, hdoc⟩ := required
    obtain ⟨_, _, _, hfind⟩ := target?_eq_some.mp hf
    have hdoc₀ : v₀.document = v.document := (congrArg VariableRow.document hsame).symm
    obtain rfl := once.eq hfind hid hdoc hw' (hwdoc'.trans (hwdoc.trans (hdoc₀.trans hdoc)))
      (hwname'.trans (hwname.trans hname))
    exact Option.some.inj (hw.symm.trans hv₀)
  obtain ⟨nonNull, given⟩ := supplies_of_rules ready.toSound (analyse_fitted prepared analysed)
    (repages₁.1.missingWith missing) (repages₂.1.withValues values) hq₀ hmem₀
    (hchild ▸ required₀) once₀
  have passed : (p.rewrite s).passed q.child = s.passed q₀.child := by
    rw [Store.passed, Store.passed, (spread_rewrite ready hrow hk).2, hchild]
  rw [Supplies, passed, ← hname]
  refine ⟨nonNull, given.imp_right ?_⟩
  rintro ⟨d, hd, hread⟩
  refine ⟨d, ?_, ?_⟩
  · rw [hsame, show v₀.default? = some d from hd]
    rfl
  · rwa [read_rewrite ready ((ready.closed.declarations v₀ hmem₀).2 d hd)]

end Project

end GraphDoc
