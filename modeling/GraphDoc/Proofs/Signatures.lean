import GraphDoc.Proofs.Stages

/-!
# Signatures of the framework's directives

The arguments of a directive are rows of a table of their own. The framework's definitions come
last, so that its rows replace those of a schema text that defines a directive of the same name. What
such a text declares beyond them stays. Of everything else nothing is known, and the rule for
arguments of directives reports it.
-/

set_option autoImplicit false

namespace GraphDoc

open Grammar Table

namespace Keyed

variable {κ α : Type} [DecidableEq κ]

def putRows (t : Keyed κ α) (rows : List (κ × α)) : Keyed κ α :=
  rows.foldl (fun t row => t.put row.1 row.2) t

def addKeys (t : Keyed κ Unit) (keys : List κ) : Keyed κ Unit :=
  keys.foldl (fun t key => t.add key ()) t

theorem putRows_append (t : Keyed κ α) (rows rows' : List (κ × α)) :
    t.putRows (rows ++ rows') = (t.putRows rows).putRows rows' := List.foldl_append

theorem addKeys_append (t : Keyed κ Unit) (keys keys' : List κ) :
    t.addKeys (keys ++ keys') = (t.addKeys keys).addKeys keys' := List.foldl_append

theorem get?_putRows_of_not_mem {rows : List (κ × α)} {key : κ} (h : key ∉ rows.map (·.1))
    (t : Keyed κ α) : (t.putRows rows).get? key = t.get? key := by
  induction rows generalizing t with
  | nil => rfl
  | cons row rows ih =>
    rw [List.map_cons, List.mem_cons, not_or] at h
    exact (ih h.2 _).trans ((get?_put ..).trans (if_neg h.1))

theorem get?_putRows_of_mem {rows : List (κ × α)} {row : κ × α} (hrow : row ∈ rows)
    (once : (rows.map (·.1)).Nodup) (t : Keyed κ α) :
    (t.putRows rows).get? row.1 = some row.2 := by
  induction rows generalizing t with
  | nil => exact absurd hrow List.not_mem_nil
  | cons first rows ih =>
    obtain ⟨new, once⟩ := List.nodup_cons.mp once
    rcases List.mem_cons.mp hrow with rfl | hrow
    · exact (get?_putRows_of_not_mem new _).trans ((get?_put ..).trans (if_pos rfl))
    · exact ih hrow once _

theorem contains_putRows (rows : List (κ × α)) (t : Keyed κ α) (key : κ) :
    (t.putRows rows).contains key ↔ t.contains key ∨ key ∈ rows.map (·.1) := by
  induction rows generalizing t with
  | nil => simp [putRows]
  | cons row rows ih =>
    refine (ih (t.put row.1 row.2)).trans ?_
    rw [contains_put, Bool.or_eq_true, decide_eq_true_eq, List.map_cons, List.mem_cons,
      or_comm (a := key = row.1), or_assoc]

theorem contains_addKeys (keys : List κ) (t : Keyed κ Unit) (key : κ) :
    (t.addKeys keys).contains key ↔ t.contains key ∨ key ∈ keys := by
  induction keys generalizing t with
  | nil => simp [addKeys]
  | cons first keys ih =>
    refine (ih (t.add first ())).trans ?_
    rw [contains_add, Bool.or_eq_true, decide_eq_true_eq, List.mem_cons,
      or_comm (a := key = first), or_assoc]

end Keyed

namespace Schema

/-! ## What definitions say about directives -/

def directivesOf (ds : List SchemaDefinition) : List DirectiveDefinition :=
  ds.filterMap fun
    | .directive d => some d
    | _ => none

def directiveRow (internal : Bool) (d : DirectiveDefinition) : String × DirectiveRow :=
  (d.name, ⟨d.repeatable, internal, true, d.description?.map Text.trim⟩)

def locationPairs (d : DirectiveDefinition) : List (String × String) :=
  d.locations.map fun l => (d.name, l)

def argumentRows (d : DirectiveDefinition) : List ((String × String) × DirectiveArgumentRow) :=
  d.arguments.map fun a => ((d.name, a.name), ⟨.ofExpr a.type, defaultText a⟩)

/-- Some definition of a directive declares an argument on it. -/
def DeclaresArgument (ds : List SchemaDefinition) (directive argument : String) : Prop :=
  ∃ d ∈ directivesOf ds, d.name = directive ∧ argument ∈ d.arguments.map (·.name)

/-- Some definition of a directive admits it at a location. -/
def DeclaresLocation (ds : List SchemaDefinition) (directive location : String) : Prop :=
  ∃ d ∈ directivesOf ds, d.name = directive ∧ location ∈ d.locations

theorem mem_argumentRows {ds : List SchemaDefinition} {directive argument : String} :
    (directive, argument) ∈ ((directivesOf ds).flatMap argumentRows).map (·.1) ↔
      DeclaresArgument ds directive argument := by
  simp only [DeclaresArgument, List.mem_map, List.mem_flatMap, argumentRows]
  constructor
  · rintro ⟨row, ⟨d, hd, a, ha, rfl⟩, heq⟩
    obtain ⟨hname, hargument⟩ := Prod.mk.inj heq
    exact ⟨d, hd, hname, a, ha, hargument⟩
  · rintro ⟨d, hd, rfl, a, ha, rfl⟩
    exact ⟨_, ⟨d, hd, a, ha, rfl⟩, rfl⟩

theorem mem_locationPairs {ds : List SchemaDefinition} {directive location : String} :
    (directive, location) ∈ (directivesOf ds).flatMap locationPairs ↔
      DeclaresLocation ds directive location := by
  simp only [DeclaresLocation, List.mem_flatMap, locationPairs, List.mem_map]
  constructor
  · rintro ⟨d, hd, l, hl, heq⟩
    obtain ⟨hname, rfl⟩ := Prod.mk.inj heq
    exact ⟨d, hd, hname, hl⟩
  · rintro ⟨d, hd, rfl, hl⟩
    exact ⟨d, hd, location, hl, rfl⟩

/-- The tables about directives. -/
def directiveTables (s : Schema) : Keyed String DirectiveRow × Keyed (String × String) Unit ×
    Keyed (String × String) DirectiveArgumentRow :=
  (s.directives, s.directiveLocations, s.directiveArguments)

theorem directiveTables_addParts (internal : Bool) (t : TypeDefinition) (s : Schema) :
    (addParts internal t s).directiveTables = s.directiveTables :=
  addParts_keeps directiveTables (fun _ _ => rfl) (fun _ _ => rfl) (fun _ _ => rfl) (fun _ _ => rfl)
    internal t s

theorem directiveTables_addTypenames (s : Schema) :
    (addTypenames s).directiveTables = s.directiveTables :=
  foldl_keeps directiveTables addTypename (fun s a => by rw [addTypename]; split <;> rfl) _ s

theorem foldl_addLocation (directive : String) (locations : List String) (s : Schema) :
    locations.foldl (addLocation directive) s = { s with
      directiveLocations := s.directiveLocations.addKeys (locations.map (directive, ·)) } := by
  induction locations generalizing s with
  | nil => rfl
  | cons l locations ih => exact ih _

theorem foldl_addDirectiveArgument (d : DirectiveDefinition) (s : Schema) :
    d.arguments.foldl (addDirectiveArgument d.name) s = { s with
      directiveArguments := s.directiveArguments.putRows (argumentRows d) } := by
  rw [argumentRows]
  induction d.arguments generalizing s with
  | nil => rfl
  | cons a arguments ih => exact ih _

theorem directiveTables_addDefinitions (internal : Bool) (ds : List SchemaDefinition)
    (s : Schema) : (addDefinitions internal ds s).directiveTables =
      (s.directives.putRows ((directivesOf ds).map (directiveRow internal)),
        s.directiveLocations.addKeys ((directivesOf ds).flatMap locationPairs),
        s.directiveArguments.putRows ((directivesOf ds).flatMap argumentRows)) := by
  induction ds generalizing s with
  | nil => rfl
  | cons x ds ih =>
    have others : ∀ t : Schema, t.directiveTables = s.directiveTables →
        (addDefinitions internal ds t).directiveTables =
          (s.directives.putRows ((directivesOf ds).map (directiveRow internal)),
            s.directiveLocations.addKeys ((directivesOf ds).flatMap locationPairs),
            s.directiveArguments.putRows ((directivesOf ds).flatMap argumentRows)) := by
      intro t ht
      obtain ⟨hd, hl, ha⟩ : t.directives = s.directives ∧
          t.directiveLocations = s.directiveLocations ∧
          t.directiveArguments = s.directiveArguments := by
        simpa only [directiveTables, Prod.mk.injEq] using ht
      rw [ih, hd, hl, ha]
    cases x with
    | roots r => exact others s rfl
    | type t => exact others _ (directiveTables_addParts internal t _)
    | extension t => exact others _ (directiveTables_addParts internal t s)
    | directive d =>
      refine (ih (addDirective internal d s)).trans ?_
      rw [addDirective, foldl_addLocation, foldl_addDirectiveArgument,
        show directivesOf (.directive d :: ds) = d :: directivesOf ds from rfl, List.flatMap_cons,
        List.flatMap_cons, Keyed.putRows_append, Keyed.addKeys_append]
      rfl

/-! ## The framework's directives -/

def frameworkDirectives : List DirectiveDefinition := directivesOf internalDefinitions

set_option maxRecDepth 100000 in
theorem framework_arguments_nodup :
    (((directivesOf (definitionsOfChars internalChars)).flatMap argumentRows).map (·.1)).Nodup := by
  decide +kernel

set_option maxRecDepth 100000 in
theorem builtIn_not_framework : ∀ d ∈ directivesOf (definitionsOfChars spelling.builtIn),
    ∀ e ∈ directivesOf (definitionsOfChars internalChars), d.name ≠ e.name := by
  decide +kernel

theorem name_ne_of_builtIn {d e : DirectiveDefinition} (hd : d ∈ directivesOf builtInDefinitions)
    (he : e ∈ frameworkDirectives) : d.name ≠ e.name := by
  have eq : builtInDefinitions = definitionsOfChars spelling.builtIn :=
    (congrArg definitionsOf spelling.builtIn_eq).trans (definitionsOf_ofList _)
  rw [eq] at hd
  rw [frameworkDirectives, internalDefinitions_eq] at he
  exact builtIn_not_framework d hd e he

/-- The rows of the built-in directives, of the text and of the framework, one after the other. -/
def directivesBefore (ds : List SchemaDefinition) : List DirectiveDefinition :=
  directivesOf builtInDefinitions ++ directivesOf ds

theorem directiveTables_addProject (ds : List SchemaDefinition) (s : Schema) :
    (addProject ds s).directiveTables =
      (s.directives.putRows ((directivesBefore ds).map (directiveRow false)),
        s.directiveLocations.addKeys ((directivesBefore ds).flatMap locationPairs),
        s.directiveArguments.putRows ((directivesBefore ds).flatMap argumentRows)) := by
  let scalars := Framework.builtInScalars.foldl addBuiltInScalar s
  have start : scalars.directiveTables = s.directiveTables :=
    foldl_keeps directiveTables addBuiltInScalar (fun _ _ => rfl) ..
  have builtIn : (addBuiltIns s).directiveTables = _ :=
    directiveTables_addDefinitions false builtInDefinitions scalars
  have text := directiveTables_addDefinitions false ds (addBuiltIns s)
  have last : (addProject ds s).directiveTables =
      (addDefinitions false ds (addBuiltIns s)).directiveTables :=
    (directiveTables_addTypenames _).trans
      (foldl_keeps directiveTables markRoot (fun _ _ => rfl) (rootNames ds) _)
  simp only [directiveTables, Prod.mk.injEq] at start builtIn text last ⊢
  rw [last.1, last.2.1, last.2.2, text.1, text.2.1, text.2.2, builtIn.1, builtIn.2.1, builtIn.2.2,
    start.1, start.2.1, start.2.2, directivesBefore, List.map_append, List.flatMap_append,
    List.flatMap_append, Keyed.putRows_append, Keyed.putRows_append, Keyed.addKeys_append]
  exact ⟨rfl, rfl, rfl⟩

/-- What hidden definitions bring. They are a variable here: otherwise Lean would parse the
framework's text. -/
theorem directiveTables_hidden (own : List SchemaDefinition) (s : Schema) :
    let t := addTypenames (hiddenDirectives.foldl hideDirective (addDefinitions true own s))
    (∀ d ∈ directivesOf own, t.directives.contains d.name) ∧
    t.directiveLocations = s.directiveLocations.addKeys ((directivesOf own).flatMap locationPairs) ∧
    t.directiveArguments = s.directiveArguments.putRows ((directivesOf own).flatMap argumentRows) := by
  intro t
  have defined := directiveTables_addDefinitions true own s
  have last : t.directiveTables = (hideDirective (addDefinitions true own s)
      Framework.runtimeScalarTag).directiveTables := directiveTables_addTypenames _
  simp only [directiveTables, Prod.mk.injEq] at defined last
  rw [last.1, last.2.1, last.2.2]
  refine ⟨fun d hd => ?_, defined.2⟩
  have entered : d.name ∈ ((directivesOf own).map (directiveRow true)).map (·.1) :=
    List.mem_map.mpr ⟨_, List.mem_map_of_mem hd, rfl⟩
  have contained := (Keyed.contains_putRows _ s.directives d.name).mpr (.inr entered)
  rw [hideDirective, Keyed.contains_eq, Keyed.get?_modify, defined.1]
  rw [Keyed.contains_eq] at contained
  split
  · rw [Option.isSome_map]
    exact contained
  · exact contained

theorem directiveTables_addAll (ds : List SchemaDefinition) (s : Schema) :
    (∀ d ∈ frameworkDirectives, (addAll ds s).directives.contains d.name) ∧
    (addAll ds s).directiveLocations = (s.directiveLocations.addKeys
      ((directivesBefore ds).flatMap locationPairs)).addKeys
        (frameworkDirectives.flatMap locationPairs) ∧
    (addAll ds s).directiveArguments = (s.directiveArguments.putRows
      ((directivesBefore ds).flatMap argumentRows)).putRows
        (frameworkDirectives.flatMap argumentRows) := by
  have project := directiveTables_addProject ds s
  have framework := directiveTables_hidden internalDefinitions (addProject ds s)
  simp only [directiveTables, Prod.mk.injEq] at project
  rw [project.2.1, project.2.2] at framework
  exact framework

section

variable {d : DirectiveDefinition} {ds : List SchemaDefinition} {s : Schema}

theorem get?_framework_argument (loaded : s = addAll ds {}) (hd : d ∈ frameworkDirectives)
    {a : InputValue} (ha : a ∈ d.arguments) :
    s.directiveArguments.get? (d.name, a.name) = some ⟨.ofExpr a.type, defaultText a⟩ := by
  have once : ((frameworkDirectives.flatMap argumentRows).map (·.1)).Nodup := by
    rw [frameworkDirectives, internalDefinitions_eq]
    exact framework_arguments_nodup
  have row : ((d.name, a.name), (⟨.ofExpr a.type, defaultText a⟩ : DirectiveArgumentRow)) ∈
      frameworkDirectives.flatMap argumentRows :=
    List.mem_flatMap.mpr ⟨d, hd, List.mem_map.mpr ⟨a, ha, rfl⟩⟩
  rw [loaded, (directiveTables_addAll ds {}).2.2]
  exact Keyed.get?_putRows_of_mem row once _

set_option maxRecDepth 100000 in
theorem framework_names_nodup :
    ((directivesOf (definitionsOfChars internalChars)).map (·.name)).Nodup := by
  decide +kernel

theorem eq_of_framework_name (hd : d ∈ frameworkDirectives) {e : DirectiveDefinition}
    (he : e ∈ frameworkDirectives) (h : e.name = d.name) : e = d := by
  have once : (frameworkDirectives.map (·.name)).Nodup := by
    rw [frameworkDirectives, internalDefinitions_eq]
    exact framework_names_nodup
  exact List.inj_on_of_nodup_map once he hd h

theorem not_mem_before (hd : d ∈ frameworkDirectives) {α β : Type}
    {parts : DirectiveDefinition → List α} {key : α → String × β} {part : β}
    (named : ∀ e, ∀ x ∈ parts e, (key x).1 = e.name)
    (h : ∀ e ∈ directivesOf ds, e.name = d.name → ∀ x ∈ parts e, (key x).2 ≠ part) :
    (d.name, part) ∉ ((directivesBefore ds).flatMap parts).map key := by
  intro hm
  obtain ⟨x, hx, heq⟩ := List.mem_map.mp hm
  obtain ⟨e, he, hx⟩ := List.mem_flatMap.mp hx
  have hname : e.name = d.name := (named e x hx).symm.trans (congrArg Prod.fst heq)
  rcases List.mem_append.mp he with he | he
  · exact name_ne_of_builtIn he hd hname
  · exact h e he hname x hx (congrArg Prod.snd heq)

theorem get?_other_argument (loaded : s = addAll ds {}) (hd : d ∈ frameworkDirectives)
    {argument : String} (own : argument ∉ d.arguments.map (·.name))
    (text : ¬ DeclaresArgument ds d.name argument) :
    s.directiveArguments.get? (d.name, argument) = none := by
  have framework : (d.name, argument) ∉ (frameworkDirectives.flatMap argumentRows).map (·.1) := by
    rw [frameworkDirectives, mem_argumentRows]
    rintro ⟨e, he, hname, hargument⟩
    obtain rfl := eq_of_framework_name hd he hname
    exact own hargument
  have before : (d.name, argument) ∉ ((directivesBefore ds).flatMap argumentRows).map (·.1) := by
    refine not_mem_before hd (fun e x hx => ?_) fun e he hname x hx heq => ?_
    · obtain ⟨a, _, rfl⟩ := List.mem_map.mp hx
      rfl
    · obtain ⟨a, ha, rfl⟩ := List.mem_map.mp hx
      exact text ⟨e, he, hname, List.mem_map.mpr ⟨a, ha, heq⟩⟩
  rw [loaded, (directiveTables_addAll ds {}).2.2, Keyed.get?_putRows_of_not_mem framework,
    Keyed.get?_putRows_of_not_mem before]
  rfl

theorem contains_framework_location (loaded : s = addAll ds {}) (hd : d ∈ frameworkDirectives)
    {location : String} (hl : location ∈ d.locations) :
    s.directiveLocations.contains (d.name, location) := by
  rw [loaded, (directiveTables_addAll ds {}).2.1, Keyed.contains_addKeys, frameworkDirectives,
    mem_locationPairs]
  exact .inr ⟨d, hd, rfl, hl⟩

theorem contains_other_location (loaded : s = addAll ds {}) (hd : d ∈ frameworkDirectives)
    {location : String} (own : location ∉ d.locations)
    (text : ¬ DeclaresLocation ds d.name location) :
    s.directiveLocations.contains (d.name, location) = false := by
  have before : (d.name, location) ∉
      ((directivesBefore ds).flatMap locationPairs).map (fun pair => pair) := by
    refine not_mem_before hd (fun e x hx => ?_) fun e he hname x hx heq => ?_
    · obtain ⟨l, _, rfl⟩ := List.mem_map.mp hx
      rfl
    · obtain ⟨l, hl, rfl⟩ := List.mem_map.mp hx
      exact text ⟨e, he, hname, heq ▸ hl⟩
  rw [List.map_id'] at before
  rw [loaded, ← Bool.not_eq_true, (directiveTables_addAll ds {}).2.1, Keyed.contains_addKeys,
    Keyed.contains_addKeys, frameworkDirectives, mem_locationPairs]
  rintro ((h | h) | ⟨e, he, hname, hl⟩)
  · cases h
  · exact before h
  · obtain rfl := eq_of_framework_name hd he hname
    exact own hl

end

end Schema

/-! ## The rule -/

/-- An argument of a directive as it is passed in a document: on a selection that is placed there or
on the document itself. -/
inductive Store.Passed (t : Store) : DirectiveUse → DirectiveArgument → DocumentRow → Prop where
  | selection (q : Placement) {use : DirectiveUse} {a : DirectiveArgument} {d : DocumentRow}
      (ha : a ∈ (t.directives .selection).arguments.rows)
      (hu : (t.directives .selection).uses.get? a.owner = some use)
      (hq : q ∈ t.placements.rows) (hchild : q.child = use.owner)
      (hd : t.documents.get? q.document = some d) : t.Passed use a d
  | document {use : DirectiveUse} {a : DirectiveArgument} {d : DocumentRow}
      (ha : a ∈ (t.directives .document).arguments.rows)
      (hu : (t.directives .document).uses.get? a.owner = some use)
      (hd : t.documents.get? use.owner = some d) : t.Passed use a d

namespace Rule

variable {t : Store}

/-- What is reported for an argument that a directive does not declare. -/
def unknownArgument (directive argument : String) (location : Location) : Diagnostic :=
  .validation ("Unknown argument \"" ++ argument ++ "\" on directive \"@" ++ directive ++ "\"")
    location

theorem location_eq_ok (closed : t.Closed) {id : Int} {d : DocumentRow}
    (hd : t.documents.get? id = some d) (p : Position) : ∃ l, t.location d.source p = .ok l := by
  obtain ⟨source, hsource⟩ := contains_iff.mp
    (closed.documents d (mem_rows_of_get? hd))
  rw [Store.location, hsource]
  exact ⟨_, rfl⟩

theorem unknownArguments_eq_ok (closed : t.Closed) (site : Site)
    {directives : List (Int × DirectiveUse × DocumentRow)}
    (here : ∀ e ∈ directives, ∃ id, t.documents.get? id = some e.2.2) :
    ∃ found, unknownArguments t site directives = .ok found ∧
      ∀ a ∈ (t.directives site).arguments.rows, ∀ e ∈ directives, e.1 = a.owner →
        isUnknownArgument t.schema e.2.1.name a.name →
        ∃ l, t.location e.2.2.source a.position = .ok l ∧
          unknownArgument e.2.1.name a.name l ∈ found := by
  let unknown := (t.directives site).arguments.rows.flatMap fun a =>
    (directives.filter fun e => e.1 = a.owner && isUnknownArgument t.schema e.2.1.name a.name).map
      fun e => (a, e.2.1, e.2.2)
  have located : ∀ x ∈ unknown, ∃ l, t.location x.2.2.source x.1.position = .ok l := by
    intro x hx
    obtain ⟨a, _, hx⟩ := List.mem_flatMap.mp hx
    obtain ⟨e, he, rfl⟩ := List.mem_map.mp hx
    obtain ⟨id, hid⟩ := here e (List.mem_filter.mp he).1
    exact location_eq_ok closed hid a.position
  choose! l hl using located
  refine ⟨unknown.map fun x => unknownArgument x.2.1.name x.1.name (l x), ?_, ?_⟩
  · refine mapM_eq_ok fun x hx => ?_
    obtain ⟨a, use, document⟩ := x
    simp only [hl _ hx]
    rfl
  · intro a ha e he howner hunknown
    have hx : (a, e.2.1, e.2.2) ∈ unknown := by
      refine List.mem_flatMap.mpr ⟨a, ha, List.mem_map.mpr ⟨e, List.mem_filter.mpr ⟨he, ?_⟩, rfl⟩⟩
      rw [Bool.and_eq_true, decide_eq_true_eq]
      exact ⟨howner, hunknown⟩
    exact ⟨_, hl _ hx, List.mem_map.mpr ⟨_, hx, rfl⟩⟩

theorem directiveArguments_reports (closed : t.Closed) (config : Config) :
    ∃ found, directiveArguments.run config t = .ok (t, found) ∧
      ∀ use a d, t.Passed use a d → isUnknownArgument t.schema use.name a.name →
        ∃ l, t.location d.source a.position = .ok l ∧
          unknownArgument use.name a.name l ∈ found := by
  have placed : ∀ e ∈ placedDirectives t, ∃ id, t.documents.get? id = some e.2.2 := by
    intro e he
    obtain ⟨_, _, he⟩ := List.mem_flatMap.mp he
    obtain ⟨u, hu, rfl⟩ := List.mem_map.mp he
    obtain ⟨q, _, hq⟩ := List.mem_filterMap.mp (List.mem_filter.mp hu).1
    split at hq
    · next hrow hd =>
      cases hq
      exact ⟨_, hd⟩
    · cases hq
  have standing : ∀ e ∈ documentDirectives t, ∃ id, t.documents.get? id = some e.2.2 := by
    intro e he
    obtain ⟨_, _, he⟩ := List.mem_filterMap.mp he
    obtain ⟨d, hd, rfl⟩ := Option.map_eq_some_iff.mp he
    exact ⟨_, hd⟩
  obtain ⟨found, hfound, selections⟩ := unknownArguments_eq_ok closed .selection placed
  obtain ⟨found', hfound', documents⟩ := unknownArguments_eq_ok closed .document standing
  refine ⟨found ++ found', ?_, fun use a d passed unknown => ?_⟩
  · simp only [directiveArguments, reading, hfound, hfound']
    rfl
  · cases passed with
    | selection q ha hu hq hchild hd =>
      obtain ⟨row, hrow⟩ := contains_iff.mp (closed.placements q hq).2.1
      have placed : ⟨q.child, row, q.document, d, q.parent?, q.position⟩ ∈ t.uses := by
        refine List.mem_filterMap.mpr ⟨q, hq, ?_⟩
        simp only [hrow, hd]
      have entry : (a.owner, use, d) ∈ placedDirectives t :=
        List.mem_flatMap.mpr ⟨(a.owner, use), mem_of_get? hu,
          List.mem_map.mpr ⟨_, List.mem_filter.mpr ⟨placed, decide_eq_true hchild⟩, rfl⟩⟩
      obtain ⟨l, hl, hreport⟩ := selections a ha _ entry rfl unknown
      exact ⟨l, hl, List.mem_append_left _ hreport⟩
    | document ha hu hd =>
      have entry : (a.owner, use, d) ∈ documentDirectives t := by
        refine List.mem_filterMap.mpr ⟨(a.owner, use), mem_of_get? hu, ?_⟩
        simp only [hd, Option.map_some]
      obtain ⟨l, hl, hreport⟩ := documents a ha _ entry rfl unknown
      exact ⟨l, hl, List.mem_append_right _ hreport⟩

end Rule

namespace Store

open Schema

theorem schema_of_ok {s₀ s : Store} {schema : Schema}
    (h : (.ok ({ s₀ with schema := schema }, ()) : Except Failure (Store × Unit)) = .ok (s, ())) :
    s.schema = schema := by
  cases h
  rfl

theorem schema_of_loadSchema {s₀ s : Store} {text : String} {ds : List SchemaDefinition}
    (parsed : parseSchema text = .ok ds) (accepted : s₀.loadSchema text = (s, .ok ())) :
    s.schema = s₀.schema.addAll ds := by
  obtain ⟨hs, _⟩ := commit_eq_ok accepted
  rw [parsed] at hs
  exact schema_of_ok hs

/-- After a schema was loaded, each of the framework's directives has the arguments and locations
that the framework gives it, and no others but those that the text itself may declare. An argument
that nobody declares is reported wherever it is passed, unless the directive takes any. -/
theorem framework_signatures_kept {c : Config} {text : String} {ds : List SchemaDefinition}
    {s : Store} (parsed : parseSchema text = .ok ds)
    (accepted : (Store.empty.configure c).loadSchema text = (s, .ok ())) :
    ∀ d ∈ frameworkDirectives,
      (∀ a ∈ d.arguments, s.schema.directiveArguments.get? (d.name, a.name) =
        some ⟨.ofExpr a.type, defaultText a⟩) ∧
      (∀ name, name ∉ d.arguments.map (·.name) → ¬ DeclaresArgument ds d.name name →
        s.schema.directiveArguments.get? (d.name, name) = none) ∧
      (∀ l ∈ d.locations, s.schema.directiveLocations.contains (d.name, l) = true) ∧
      (∀ l, l ∉ d.locations → ¬ DeclaresLocation ds d.name l →
        s.schema.directiveLocations.contains (d.name, l) = false) ∧
      (d.name ∉ Framework.freeFormTags → ∀ t : Store, t.Closed →
        t.schema.directives = s.schema.directives →
        t.schema.directiveArguments = s.schema.directiveArguments → ∀ config,
        ∃ found, Rule.directiveArguments.run config t = .ok (t, found) ∧
          ∀ use a document, t.Passed use a document → use.name = d.name →
            a.name ∉ d.arguments.map (·.name) → ¬ DeclaresArgument ds d.name a.name →
            ∃ l, t.location document.source a.position = .ok l ∧
              Rule.unknownArgument d.name a.name l ∈ found) := by
  have loaded := schema_of_loadSchema parsed accepted
  rw [show (Store.empty.configure c).schema = {} from rfl] at loaded
  intro d hd
  refine ⟨fun a ha => get?_framework_argument loaded hd ha,
    fun name own other => get?_other_argument loaded hd own other,
    fun l hl => contains_framework_location loaded hd hl,
    fun l own other => contains_other_location loaded hd own other,
    fun strict t closed directives arguments config => ?_⟩
  obtain ⟨found, run, reports⟩ := Rule.directiveArguments_reports closed config
  refine ⟨found, run, fun use a document passed hname own other => ?_⟩
  have unknown : Rule.isUnknownArgument t.schema use.name a.name = true := by
    have known : s.schema.directives.contains d.name = true :=
      loaded ▸ (directiveTables_addAll ds {}).1 d hd
    have missing := get?_other_argument loaded hd own other
    rw [Rule.isUnknownArgument, directives, arguments, hname, known, Keyed.contains_eq, missing]
    simp [strict]
  exact hname ▸ reports use a document passed unknown

/-- Whether a placed selection passes an argument to a directive. -/
def passes (t : Store) (directive argument : String) : Bool :=
  (t.directives .selection).arguments.rows.any fun a => a.name = argument &&
    ((t.directives .selection).uses.get? a.owner).any fun u => u.name = directive &&
      t.placements.rows.any fun q => q.child = u.owner && t.documents.contains q.document

theorem exists_passed {t : Store} {directive argument : String}
    (h : t.passes directive argument) : ∃ use a document, t.Passed use a document ∧
      use.name = directive ∧ a.name = argument := by
  obtain ⟨a, ha, h⟩ := List.any_eq_true.mp h
  simp only [Bool.and_eq_true, decide_eq_true_eq, Option.any_eq_true, List.any_eq_true] at h
  obtain ⟨hargument, use, hu, hname, q, hq, hchild, hd⟩ := h
  obtain ⟨document, hd⟩ := contains_iff.mp hd
  exact ⟨use, a, document, .selection q ha hu hq hchild hd, hname, hargument⟩

end Store

namespace Project

open Schema Store

theorem exists_loadSchema {p : Project} {s₀ : Store} (h : p.prepare = .ok s₀) :
    ∃ s, (Store.empty.configure p.config).loadSchema p.schema = (s, .ok ()) ∧
      s₀.schema = s.schema := by
  obtain ⟨t, hl, rfl⟩ := loadSchema_of_prepare h
  exact ⟨t, hl, List.foldlRecOn (motive := fun r : Store × List Int => r.1.schema = t.schema)
    p.sources _ rfl fun _ hr _ _ => hr⟩

/-- The schema has a list directive of its own, and a document passes an argument that no such
directive declares. -/
def notices : Project where
  schema := "directive @list(name: Int, extra: Int) on QUERY
    type Query \x7b users: [User] \x7d type User \x7b id: ID \x7d"
  sources := [{
    filepath := "notices.graphql"
    content := "query Q \x7b users @list(name: \"All\", other: 1) \x7b id \x7d \x7d" }]

set_option maxRecDepth 10000 in
def noticesSpelling : Spelling notices := ⟨_, [_], rfl, rfl⟩

set_option maxRecDepth 100000 in
theorem notices_passes : (noticesSpelling.prepared?.any fun s =>
    (loadEach loadSpelled s (s.sources.entries.zip noticesSpelling.sources)).1.passes
      "list" "other") := by
  decide +kernel

set_option maxRecDepth 100000 in
theorem notices_declares : (match schemaChars noticesSpelling.schema with
    | .ok ds => (directivesOf ds).all fun d => "other" ∉ d.arguments.map (·.name)
    | .error _ => false) = true := by
  decide +kernel

set_option maxRecDepth 100000 in
theorem framework_list : ∃ d ∈ directivesOf (definitionsOfChars internalChars), d.name = "list" ∧
    "other" ∉ d.arguments.map (·.name) ∧
    ∃ a ∈ d.arguments, a.name = "name" ∧ TypeRef.ofExpr a.type = ⟨"String", "!"⟩ := by
  decide +kernel

theorem notices_signatures_kept : ∃ s t found l,
    (Store.empty.configure notices.config).loadSchema notices.schema = (s, .ok ()) ∧
    s.schema.directiveArgumentType? "list" "name" = some ⟨"String", "!"⟩ ∧
    notices.After .loading t ∧
    Rule.directiveArguments.run notices.config t = .ok (t, found) ∧
    Rule.unknownArgument "list" "other" l ∈ found := by
  obtain ⟨s₀, hs₀, passes⟩ := (Option.any_eq_true _ _).mp notices_passes
  have prepared := (noticesSpelling.prepare_of_prepared? hs₀).1
  rw [← noticesSpelling.loadSources_of_prepared? hs₀] at passes
  obtain ⟨s, accepted, schema⟩ := exists_loadSchema prepared
  have loaded : notices.After .loading s₀.loadSources.1 := .load (.prepare prepared)
  have same : s₀.loadSources.1.schema = s.schema :=
    (loadSources_ready (After.prepare prepared).keeps.1).schema.trans schema
  obtain ⟨ds, parsed, undeclared⟩ : ∃ ds, parseSchema notices.schema = .ok ds ∧
      ¬ DeclaresArgument ds "list" "other" := by
    have declares := notices_declares
    split at declares
    · next ds hds =>
      refine ⟨ds, by rw [noticesSpelling.schema_eq, parseSchema_ofList, hds], ?_⟩
      rintro ⟨d, hd, _, hargument⟩
      exact of_decide_eq_true (List.all_eq_true.mp declares d hd) hargument
    · cases declares
  obtain ⟨d, hd, hname, other, a, ha, haname, htype⟩ := framework_list
  rw [← internalDefinitions_eq, ← frameworkDirectives] at hd
  obtain ⟨own, _, _, _, rule⟩ := framework_signatures_kept parsed accepted d hd
  obtain ⟨found, run, reports⟩ := rule (by rw [hname]; decide) s₀.loadSources.1
    loaded.keeps.1.closed (by rw [same]) (by rw [same]) notices.config
  obtain ⟨use, b, document, passed, huse, hb⟩ := exists_passed passes
  obtain ⟨l, _, hl⟩ := reports use b document passed (huse.trans hname.symm) (hb ▸ other)
    (by rw [hname, hb]; exact undeclared)
  refine ⟨s, _, found, l, accepted, ?_, loaded, run, hname ▸ hb ▸ hl⟩
  have hget := own a ha
  rw [hname, haname] at hget
  rw [directiveArgumentType?, hget, Option.map_some, htype]

/-! ## Directives that take any argument -/

/-- A spread is passed a condition. -/
def occasions : Project where
  schema := "type Query \x7b user: User \x7d type User \x7b id: ID \x7d"
  sources := [{
    filepath := "occasions.graphql"
    content := "fragment F on User \x7b id \x7d query Q \x7b user \x7b ...F @when(x: 1) \x7d \x7d" }]

set_option maxRecDepth 10000 in
def occasionsSpelling : Spelling occasions := ⟨_, [_], rfl, rfl⟩

set_option maxRecDepth 100000 in
theorem occasions_passes : (occasionsSpelling.analysis?.any fun e => e.1.passes "when" "x") := by
  decide +kernel

set_option maxRecDepth 100000 in
theorem framework_when : ∃ d ∈ directivesOf (definitionsOfChars internalChars), d.name = "when" ∧
    d.arguments.map (·.name) = [] := by
  decide +kernel

/-- An argument that the framework does not declare on its directive is not reported. -/
theorem occasions_not_reported : ∃ c l d use a document, occasions.compile false = .ok c ∧
    c.diagnostics = [] ∧ occasions.After .loading l ∧ d ∈ frameworkDirectives ∧
    l.Passed use a document ∧ use.name = d.name ∧ a.name ∉ d.arguments.map (·.name) := by
  obtain ⟨s₀, s, prepared, analysed, passes⟩ := occasionsSpelling.exists_of_any occasions_passes
  obtain ⟨c, compiled, clean, _⟩ := compile_of_analyse prepared analysed
  obtain ⟨d, hd, hname, none⟩ := framework_when
  rw [← internalDefinitions_eq, ← frameworkDirectives] at hd
  obtain ⟨use, a, document, passed, huse, _⟩ := exists_passed passes
  exact ⟨c, _, d, use, a, document, compiled, clean, .load (.prepare prepared), hd, passed,
    huse.trans hname.symm, by rw [none]; exact List.not_mem_nil⟩

end Project

end GraphDoc
