import GraphDoc.Proofs.Targets

/-!
# Names of documents

Documents of one kind are told apart by their names. Validation checks this after the fragments of
component fields got their names and before lists and clones bring fragments of their own, so three
groups of documents have unique names each: the loaded ones, those of the lists and the clones.
-/

set_option autoImplicit false

namespace GraphDoc

open Grammar Table

/-- The kind of a document and its name. -/
def DocumentRow.key (d : DocumentRow) : DocumentKind × String := (d.kind, d.name)

namespace Grammar.Definition

/-- The kind and the name that a definition is written with. -/
def key : Definition → DocumentKind × String
  | .operation o => (o.kind, o.name?.getD "")
  | .fragment f => (.fragment, f.name)

def directives : Definition → List Directive
  | .operation o => o.directives
  | .fragment f => f.directives

/-- Whether a definition is a fragment that declares a component field. -/
def declaresField (d : Definition) : Bool :=
  d.key.1 = .fragment && d.directives.any (·.name == Framework.componentFieldTag)

end Grammar.Definition

/-- All definitions of a project, in order. -/
def Project.definitions (p : Project) : List Definition := p.sources.flatMap (·.definitions)

/-- No two entries of one kind share a name. Operations need not have one. -/
def UniqueNames (keys : List (DocumentKind × String)) : Prop :=
  keys.Pairwise fun a b => a = b → a.2 = ""

instance (keys : List (DocumentKind × String)) : Decidable (UniqueNames keys) :=
  inferInstanceAs (Decidable (List.Pairwise _ _))

theorem uniqueNames_append {keys keys' : List (DocumentKind × String)} :
    UniqueNames (keys ++ keys') ↔ UniqueNames keys ∧ UniqueNames keys' ∧
      ∀ a ∈ keys, ∀ b ∈ keys', a = b → a.2 = "" := List.pairwise_append

theorem uniqueNames_of_nodup {names : List String} (h : names.Nodup) :
    UniqueNames (names.map (DocumentKind.fragment, ·)) :=
  List.pairwise_map.mpr (h.imp fun hne he => absurd (Prod.mk.inj he).2 hne)

namespace Table

/-- The names in a table, by the numbers of its rows. -/
theorem uniqueNames_iff {t : Table DocumentRow} : UniqueNames (t.rows.map (·.key)) ↔
    ∀ i j a b, t.get? i = some a → t.get? j = some b → a.key = b.key → a.name ≠ "" → i = j := by
  rw [UniqueNames, rows, List.map_map, List.pairwise_map]
  constructor
  · intro h i j a b hi hj
    refine List.Pairwise.forall_of_forall_of_flip
      (R := fun e e' : Int × DocumentRow => e.2.key = e'.2.key → e.2.name ≠ "" → e.1 = e'.1)
      (fun _ _ _ _ => rfl) (h.imp fun h hkey hname => absurd (h hkey) hname)
      (h.imp fun h hkey hname => absurd (h hkey.symm) fun hempty => hname ?_)
      (mem_of_get? hi) (mem_of_get? hj)
    exact (Prod.mk.inj hkey).2.trans hempty
  · intro h
    refine t.ordered.imp_of_mem fun {e e'} he he' hlt hkey => ?_
    refine Classical.byContradiction fun hname => ?_
    have := h _ _ _ _ (get?_of_mem he) (get?_of_mem he') hkey hname
    omega

end Table

theorem forall₂_of_mapM {α β ε : Type} {f : α → Except ε β} {l : List α} {bs : List β}
    (h : l.mapM f = .ok bs) : List.Forall₂ (fun a b => f a = .ok b) l bs := by
  induction l generalizing bs with
  | nil =>
    cases h
    exact .nil
  | cons a l ih =>
    rw [List.mapM_cons] at h
    obtain ⟨b, hb, h⟩ := bind_eq_ok.mp h
    obtain ⟨rest, hrest, h⟩ := bind_eq_ok.mp h
    cases h
    exact .cons hb (ih hrest)

theorem pairwise_of_forall₂ {α β : Type} {R : α → β → Prop} {P : α → α → Prop} {Q : β → β → Prop}
    {l : List α} {l' : List β} (h : List.Forall₂ R l l')
    (hQ : ∀ a a' b b', R a b → R a' b' → P a a' → Q b b') (hP : l.Pairwise P) :
    l'.Pairwise Q := by
  obtain ⟨hlength, hR⟩ := List.forall₂_iff_get.mp h
  rw [List.pairwise_iff_getElem] at hP ⊢
  intro i j hi hj hij
  exact hQ _ _ _ _ (hR i (hlength ▸ hi) hi) (hR j (hlength ▸ hj) hj)
    (hP i j (hlength ▸ hi) (hlength ▸ hj) hij)

theorem nodup_map_of_filter {α β : Type} [DecidableEq β] {f : α → β} {l : List α}
    (h : ∀ a ∈ l, (l.filter (f · = f a)).length ≤ 1) : (l.map f).Nodup := by
  refine List.nodup_iff_count_le_one.mpr fun b => ?_
  by_cases hb : b ∈ l.map f
  · obtain ⟨a, ha, rfl⟩ := List.mem_map.mp hb
    rw [List.count, List.countP_map, List.countP_eq_length_filter]
    exact h a ha
  · rw [List.count_eq_zero_of_not_mem hb]
    exact Nat.zero_le _

namespace Store

variable {s s' : Store}

/-! ## Validation -/

theorem uniqueNames_of_duplicateDocuments {config : Config}
    (h : Rule.duplicateDocuments.run config s = .ok (s', [])) :
    UniqueNames (s.documents.rows.map (·.key)) := by
  obtain ⟨found, hcheck, h⟩ := bind_eq_ok.mp h
  cases h
  have single := eq_nil_of_mapM_eq_nil hcheck
  generalize hn : s.documents.rows.filter (fun d => !d.name.isEmpty) = named at single
  have nodup : (named.map fun d => (d.kind.text, d.name)).Nodup := by
    refine nodup_map_of_filter fun d hd => ?_
    have key := List.filter_eq_nil_iff.mp single ((d.kind.text, d.name), _)
      (List.mem_map_of_mem ((mem_sortBy_iff ..).mpr (mem_distinct_iff.mpr
        (List.mem_map_of_mem hd))))
    exact Nat.not_lt.mp fun hlt => key (decide_eq_true hlt)
  rw [UniqueNames, List.pairwise_map]
  rw [← hn, List.Nodup, List.pairwise_map, List.pairwise_filter] at nodup
  refine nodup.imp fun {d e} hne hkey => Classical.byContradiction fun hname => ?_
  obtain ⟨hkind, hsame⟩ := Prod.mk.inj hkey
  have named : ∀ n : String, n ≠ "" → (!n.isEmpty) := fun n hn => by
    rw [Bool.not_eq_true', String.isEmpty_eq_false_iff]
    exact hn
  exact hne (named _ hname) (named _ (hsame ▸ hname)) (by rw [hkind, hsame])

/-! ## Component fields -/

open ComponentField

theorem get?_registerComponent_of_ne (s : Store) {d : Declaration} {id : Int}
    (h : d.document ≠ id) : (s.registerComponent d).documents.get? id = s.documents.get? id := by
  rw [registerComponent]
  split
  · rfl
  · exact (get?_modify ..).trans (if_neg h.symm)

theorem get?_discoverComponentFields {id : Int}
    (h : ∀ d ∈ s.componentDeclarations, d.document ≠ id) :
    s.discoverComponentFields.1.documents.get? id = s.documents.get? id := by
  refine List.foldlRecOn (motive := fun outcome : Store × Diagnostics × List String =>
    outcome.1.documents.get? id = s.documents.get? id) _ _ rfl fun outcome ho group hg => ?_
  obtain ⟨key, _, rfl⟩ := List.mem_map.mp hg
  generalize hgroup : List.filter _ _ = group
  cases group with
  | nil => exact ho
  | cons d others =>
    have hd : d ∈ s.componentDeclarations :=
      List.mem_of_mem_filter (List.mem_of_mem_filter (hgroup ▸ List.mem_cons_self))
    simp only [registerGroup]
    split
    · exact ho
    · exact (get?_registerComponent_of_ne _ (h d hd)).trans ho

/-- The documents that loading brings are the definitions, in order. -/
theorem loadSources_definitions (hs : s.Closed) (new : s.documents.entries = []) :
    List.Forall₂ (fun e d => e.2.key = Definition.key d ∧
        ((s.loadSources.1.directives .document).usesOf e.1).map (·.2.name) =
          d.directives.map (·.name))
      s.loadSources.1.documents.entries (s.sources.rows.flatMap (·.definitions)) := by
  obtain ⟨rows, entries, reads⟩ := (loadSources_writes hs).shows
  have reads := forall₂_of_mapM (reads _ (.refl _ _ _))
  generalize s.loadSources.1 = t at *
  rw [entries, new, List.nil_append]
  have outlines : s.sources.entries.flatMap
      (fun e => e.2.definitions.map (·.outline s.schema e.1)) =
      (s.sources.entries.flatMap fun e => e.2.definitions.map fun d => (e.1, d)).map
        fun x => x.2.outline s.schema x.1 := by
    simp only [List.map_flatMap, List.map_map]
    rfl
  have definitions : s.sources.rows.flatMap (·.definitions) =
      (s.sources.entries.flatMap fun e => e.2.definitions.map fun d => (e.1, d)).map (·.2) := by
    simp only [List.map_flatMap, List.map_map, Table.rows, List.flatMap_map]
    exact congrArg (s.sources.entries.flatMap ·) (funext fun e => (List.map_id _).symm)
  rw [outlines, List.forall₂_map_right_iff] at reads
  rw [definitions, List.forall₂_map_right_iff]
  refine reads.imp fun e x hread => ?_
  obtain ⟨_, _, hread⟩ := bind_eq_ok.mp hread
  obtain ⟨nodes, hnodes, hread⟩ := bind_eq_ok.mp hread
  obtain ⟨_, _, hread⟩ := bind_eq_ok.mp hread
  have hread := Except.ok.inj hread
  have hrow : e.2 = (x.2.outline s.schema x.1).row := congrArg Outline.row hread
  have hdirectives : nodes = (x.2.outline s.schema x.1).directives :=
    congrArg Outline.directives hread
  rw [hrow, ← map_name_directiveNodes hnodes, hdirectives]
  constructor
  · cases x.2 <;> rfl
  · cases x.2 <;> exact List.map_map

/-! ## Names of lists -/

theorem get?_foldl_alter (uses : List (String × Location)) (m : NameMap (List Location))
    (name : String) :
    (NameMap.get? name
      (uses.foldl (fun m u => NameMap.alter u.1 (fun ls => ls.getD [] ++ [u.2]) m) m)).getD [] =
      (NameMap.get? name m).getD [] ++ (uses.filter (·.1 = name)).map (·.2) := by
  induction uses generalizing m with
  | nil => simp
  | cons u uses ih =>
    rw [List.foldl_cons, ih, NameMap.alter, NameMap.get?_put]
    by_cases h : name = u.1
    · simp [h]
    · simp [h, Ne.symm h]

theorem length_usedNames {row? : ListField.Outcome → Option ListRow}
    (found : ∀ row location, row? (.found row location) = some row)
    (unknown : row? .unknown = none) (problem : ∀ d, row? (.problem d) = none)
    (outcomes : List ListField.Outcome) (name : String) :
    ((NameMap.get? name (usedNames outcomes)).getD []).length =
      (((outcomes.filterMap row?).map (·.name)).filter (!·.isEmpty)).count name := by
  rw [usedNames, get?_foldl_alter, List.length_append, List.length_map,
    ← List.countP_eq_length_filter, NameMap.get?, Option.getD_none, List.length_nil, Nat.zero_add]
  induction outcomes with
  | nil => rfl
  | cons o outcomes ih =>
    cases o with
    | found row location =>
      by_cases he : row.name.isEmpty = true
      · simp only [List.filterMap_cons, found, he, if_true, List.map_cons, List.filter_cons,
          Bool.not_true, Bool.false_eq_true, if_false, ih]
      · simp only [List.filterMap_cons, found, he, if_false, List.map_cons, List.filter_cons,
          Bool.not_eq_true', if_true, List.countP_cons, ih,
          List.count_cons, Bool.false_eq_true, decide_eq_true_eq, beq_iff_eq]
    | unknown => simp only [List.filterMap_cons, unknown, ih]
    | problem d => simp only [List.filterMap_cons, problem, ih]

theorem discoverLists_names {config : Config} (h : s.discoverLists config = .ok (s', []))
    (new : s.lists.rows = []) : ((s'.lists.rows.map (·.name)).filter (!·.isEmpty)).Nodup := by
  obtain ⟨outcomes, _, h⟩ := bind_eq_ok.mp h
  obtain ⟨rfl, hfound⟩ := Prod.mk.inj (Except.ok.inj h)
  have single := (List.append_eq_nil_iff.mp hfound).2
  rw [rows_foldl_push, new, List.nil_append]
  refine List.nodup_iff_count_le_one.mpr fun name => ?_
  rw [← length_usedNames (fun _ _ => rfl) rfl (fun _ => rfl)]
  cases hplaces : NameMap.get? name (usedNames outcomes) with
  | none => exact Nat.zero_le _
  | some places =>
    have hreport := List.filterMap_eq_nil_iff.mp single _ (NameMap.mem_of_get? hplaces)
    by_contra hlt
    simp only [Option.getD_some, Nat.not_le] at hlt
    simp [hlt] at hreport

/-! ## Fragments of lists -/

theorem documents_appendFields (document : Int) (typeName : String) (p : Position)
    (fields : List String) (index : Int) (s : Store) :
    (appendFields document typeName p index s fields).documents = s.documents := by
  induction fields generalizing index s with
  | nil => rfl
  | cons field fields ih => exact ih _ _

/-- The fragment of a list with an ending. -/
def listFragment (l : ListRow) (p : Position) (ending : String) : DocumentRow :=
  ⟨l.name ++ ending, l.source, .fragment, some l.nodeType, p⟩

theorem documents_addRecordFragment (l : ListRow) (p : Position) (s : Store) (ending : String) :
    (addRecordFragment l p s ending).documents = s.documents.push (listFragment l p ending) :=
  documents_appendFields ..

theorem documents_addRemoveFragment (l : ListRow) (p : Position) (s : Store) :
    (addRemoveFragment l p s).documents =
      s.documents.push (listFragment l p Framework.removeEnding) :=
  documents_appendFields ..

theorem documents_addDeleteDirective (s : Store) (typeName : String) :
    (s.addDeleteDirective typeName).documents = s.documents := rfl

theorem rows_addListOperations (s : Store) (l : ListRow) :
    (s.addListOperations l).documents.rows = s.documents.rows ++
      Framework.operationEndings.map (listFragment l (s.listPosition l)) := by
  simp only [addListOperations, documents_addDeleteDirective, documents_addRemoveFragment,
    List.foldl_cons, List.foldl_nil, documents_addRecordFragment, rows_push,
    Framework.operationEndings, List.map_cons, List.map_nil, List.append_assoc,
    List.cons_append, List.nil_append]

theorem rows_foldl_addListOperations (ls : List ListRow) (s : Store) :
    ∃ listed, (ls.foldl addListOperations s).documents.rows = s.documents.rows ++ listed ∧
      listed.map (·.key) = (ls.flatMap fun l => Framework.operationEndings.map (l.name ++ ·)).map
        (DocumentKind.fragment, ·) := by
  induction ls generalizing s with
  | nil => exact ⟨[], (List.append_nil _).symm, rfl⟩
  | cons l ls ih =>
    obtain ⟨listed, rows, keys⟩ := ih (s.addListOperations l)
    refine ⟨Framework.operationEndings.map (listFragment l (s.listPosition l)) ++ listed, ?_, ?_⟩
    · rw [List.foldl_cons, rows, rows_addListOperations, List.append_assoc]
    · rw [List.map_append, keys, List.flatMap_cons, List.map_append, List.map_map, List.map_map]
      rfl

theorem generatedFragments_eq (s : Store) : Rule.generatedFragments s =
    (s.lists.rows.filter fun l => !l.name.isEmpty).flatMap
      fun l => Framework.operationEndings.map (l.name ++ ·) := by
  rw [Rule.generatedFragments]
  induction s.lists.rows with
  | nil => rfl
  | cons l ls ih =>
    rw [List.flatMap_cons, List.filter_cons, ih]
    cases l.name.isEmpty with
    | true => rfl
    | false =>
      rw [if_neg Bool.false_ne_true, Bool.not_false, if_pos rfl, List.flatMap_cons]

theorem rows_generateListOperations (s : Store) : ∃ listed,
    s.generateListOperations.1.documents.rows = s.documents.rows ++ listed ∧
      listed.map (·.key) = (Rule.generatedFragments s).map (DocumentKind.fragment, ·) := by
  rw [generatedFragments_eq]
  exact rows_foldl_addListOperations ..

theorem append_ending_inj {name name' ending ending' : String}
    (he : ending ∈ Framework.operationEndings) (he' : ending' ∈ Framework.operationEndings)
    (h : name ++ ending = name' ++ ending') : name = name' ∧ ending = ending' := by
  have length : ∀ e ∈ Framework.operationEndings, e.toList.length = 7 := by decide
  have chars := congrArg String.toList h
  rw [String.toList_append, String.toList_append] at chars
  obtain ⟨hname, hending⟩ := List.append_inj' chars ((length _ he).trans (length _ he').symm)
  exact ⟨String.toList_inj.mp hname, String.toList_inj.mp hending⟩

theorem generatedFragments_nodup
    (h : ((s.lists.rows.map (·.name)).filter (!·.isEmpty)).Nodup) :
    (Rule.generatedFragments s).Nodup := by
  have apart : (s.lists.rows.filter fun l => !l.name.isEmpty).Pairwise
      fun l l' => l.name ≠ l'.name := by
    rw [List.filter_map, List.Nodup, List.pairwise_map] at h
    exact h
  rw [generatedFragments_eq, List.nodup_flatMap]
  refine ⟨fun l _ => ?_, apart.imp fun {l l'} hne name hname hname' => hne ?_⟩
  · refine List.Nodup.map_on ?_ (by decide)
    exact fun e he e' he' heq => (append_ending_inj he he' heq).2
  · obtain ⟨e, he, rfl⟩ := List.mem_map.mp hname
    obtain ⟨e', he', heq⟩ := List.mem_map.mp hname'
    exact (append_ending_inj he' he heq).1.symm

end Store

namespace Inlining

open Store

variable {s s₀ : Store} {G : Int → Prop} {t : Task} {p p' : Progress} {spread : Int × String}

/-! ## Clones -/

/-- The documents of a run are those that it began with and the clones, under the names that were
given out. -/
def Copied (s₀ s : Store) (clones : List String) : Prop :=
  ∃ cloned, s.documents.rows = s₀.documents.rows ++ cloned ∧
    cloned.map (·.key) = clones.map (DocumentKind.fragment, ·)

theorem Visit.copied (hv : Visit G t p spread p') (h : Copied s₀ p.store p.clones) :
    Copied s₀ p'.store p'.clones := by
  obtain ⟨cloned, rows, keys⟩ := h
  cases hv with
  | settled => exact ⟨cloned, rows, keys⟩
  | led => exact ⟨cloned, rows, keys⟩
  | @made target row name _ _ _ _ s₁ s₂ _ _ _ hcloned hbound =>
    refine ⟨cloned ++ [{ row with name := name, kind := .fragment }], ?_, ?_⟩
    · rw [hbound.same]
      change s₁.documents.rows = _
      rw [hcloned.documents, rows_push, ← List.append_assoc]
      exact congrArg (· ++ _) rows
    · rw [List.map_append, keys, List.map_append]
      rfl

theorem Handed.copied (h : Handed G s₀) :
    Copied s₀ (finished s₀).store (finished s₀).clones := by
  refine h.run_keeps ⟨[], (List.append_nil _).symm, rfl⟩ ?_ ?_ (fuelFor s₀)
  · intro s u t clones hu _ hc
    rw [hu.rest]
    exact hc
  · exact fun t p spread p' _ _ hv hc => hv.copied hc

end Inlining

namespace Project

open Store

variable {p : Project} {s₀ s : Store}

/-! ## The names of a project -/

/-- No list is known before lists are discovered. -/
theorem lists_of_prepare (prepared : p.prepare = .ok s₀) : (s₀.loadSources.1.retypeScalars
    p.config.runtimeScalars).1.discoverComponentFields.1.lists.rows = [] := by
  have loaded := loadSources_ready (prepare_ready prepared).1
  have marked := retypeScalars_marking loaded.ready p.config.runtimeScalars
  have registered := discoverComponentFields_registering marked.ready
    (by rw [marked.schema, loaded.schema]; exact (prepare_ready prepared).2)
  rw [registered.lists, marked.lists, loaded.lists, prepare_rest prepared]
  rfl

/-- What an analysis that finds nothing wrong knows of names. -/
theorem analyse_names (prepared : p.prepare = .ok s₀) (analysed : p.analyse s₀ = .ok (s, [])) :
    UniqueNames (s.documents.rows.map (·.key)) ∧ (Rule.generatedFragments s).Nodup := by
  constructor
  · obtain ⟨u, v, same, run⟩ := rule_clean analysed (r := Rule.duplicateDocuments)
      (by simp [Rule.rules])
    have documents : s.documents = u.documents := by rw [show s = _ from same.1]
    rw [documents]
    exact uniqueNames_of_duplicateDocuments run
  · obtain ⟨_, _, s₁, s₂, listed, swept, ruled⟩ := analyse_clean analysed
    obtain ⟨first, second⟩ := validate_repages swept ruled
    refine generatedFragments_nodup ?_
    rw [(first.trans second).2]
    exact discoverLists_names listed (lists_of_prepare prepared)

theorem get?_of_not_declaresField (analysed : p.analyse s₀ = .ok (s, []))
    {e : Int × DocumentRow} {d : Definition} (he : e ∈ s₀.loadSources.1.documents.entries)
    (hkey : e.2.key = d.key)
    (hnames : ((s₀.loadSources.1.directives .document).usesOf e.1).map (·.2.name) =
      d.directives.map (·.name)) (hd : d.declaresField = false) :
    s.documents.get? e.1 = some e.2 := by
  have retypes := retypeScalars_retypes s₀.loadSources.1 p.config.runtimeScalars
  obtain ⟨_, _, s₁, s₂, listed, swept, ruled⟩ := analyse_clean analysed
  obtain ⟨first, second⟩ := validate_repages swept ruled
  have relists := (discoverLists_relists listed).trans (first.trans second).1
  have here : (s₀.loadSources.1.retypeScalars p.config.runtimeScalars).1.documents.get? e.1 =
      some e.2 := by
    rw [retypes]
    exact get?_of_mem he
  rw [relists]
  refine (get?_discoverComponentFields fun declared hdeclared heq => ?_).trans here
  obtain ⟨row, _, hrow, hk, _, u, hu, htag, _⟩ := mem_componentDeclarations_iff hdeclared
  rw [heq, here] at hrow
  cases hrow
  have tagged : Framework.componentFieldTag ∈ d.directives.map (·.name) := by
    rw [← hnames, ← htag, ← heq]
    rw [retypes] at hu
    exact List.mem_map_of_mem hu
  obtain ⟨directive, hdirective, hname⟩ := List.mem_map.mp tagged
  refine Bool.false_ne_true (hd.symm.trans ?_)
  rw [Definition.declaresField, Bool.and_eq_true, List.any_eq_true]
  exact ⟨decide_eq_true (hkey ▸ hk), directive, hdirective, beq_iff_eq.mpr hname⟩

/-- Two definitions of one kind share a name only if one of them declares a component field. -/
theorem definitions_names (prepared : p.prepare = .ok s₀)
    (analysed : p.analyse s₀ = .ok (s, [])) :
    p.definitions.Pairwise fun d e => d.key = e.key → d.key.2 = "" ∨ d.declaresField ∨
      e.declaresField := by
  have unique := uniqueNames_iff.mp (analyse_names prepared analysed).1
  have loaded := loadSources_definitions (prepare_ready prepared).1.closed
    (by rw [prepare_rest prepared]; rfl)
  rw [prepare_sources prepared] at loaded
  refine pairwise_of_forall₂ ((List.forall₂_and_left _ _).mpr ⟨fun _ he => he, loaded⟩)
    (P := fun e e' => e.1 < e'.1) ?_ s₀.loadSources.1.documents.ordered
  rintro e e' d d' ⟨he, hkey, hnames⟩ ⟨he', hkey', hnames'⟩ hlt hsame
  refine or_iff_not_imp_left.mpr fun hname => ?_
  by_contra hfields
  rw [not_or, Bool.not_eq_true, Bool.not_eq_true] at hfields
  have first := get?_of_not_declaresField analysed he hkey hnames hfields.1
  have second := get?_of_not_declaresField analysed he' hkey' hnames' hfields.2
  have same := unique _ _ _ _ first second (hkey.trans (hsame.trans hkey'.symm))
    (fun hempty => hname (hkey ▸ hempty))
  omega

/-- The documents at the end of a compilation: the analysed ones, those of the lists and the
clones. -/
theorem rows_transform {G : Int → Prop} (ready : s.Ready NoBorrowers)
    (handed : Inlining.Handed G (p.rewrite s)) : ∃ listed cloned,
    (p.rewrite s).documents.rows = s.documents.rows ++ listed ∧
    (p.transform s).1.documents.rows = s.documents.rows ++ listed ++ cloned ∧
    listed.map (·.key) = (Rule.generatedFragments s).map (DocumentKind.fragment, ·) ∧
    cloned.map (·.key) =
      (Inlining.finished (p.rewrite s)).clones.map (DocumentKind.fragment, ·) := by
  have paged := preparePagination_paging p.config ready
  have spread := spreadComponentFields_spreads
    (generateListOperations_generating paged.ready).ready
  obtain ⟨listed, rows, keys⟩ :=
    rows_generateListOperations (s.preparePagination p.config).1
  obtain ⟨cloned, rows', keys'⟩ := handed.copied
  have documents : (s.preparePagination p.config).1.documents = s.documents := by rw [paged.rest]
  have lists : Rule.generatedFragments (s.preparePagination p.config).1 =
      Rule.generatedFragments s := by rw [paged.rest]; rfl
  have handedOver : (p.rewrite s).documents.rows = s.documents.rows ++ listed := by
    change (s.preparePagination
      p.config).1.generateListOperations.1.spreadComponentFields.1.documents.rows = _
    rw [spread.rest, ← documents]
    exact rows
  refine ⟨listed, cloned, handedOver, ?_, lists ▸ keys, keys'⟩
  rw [transform, Inlining.inlineArguments_store, ← handedOver]
  exact rows'

/-- If a compilation finds nothing wrong, names are unique, those that are written and those at the
end, unless a fragment that declares a component field is written with the name of another one, a
fragment bears the name of an operation of a list, or a clone is given a name that is taken. -/
theorem names_unique {cancelled : Bool} {c : Compiled} (h : p.compile cancelled = .ok c)
    (clean : c.diagnostics = [])
    (fields : p.definitions.Pairwise fun d e =>
      d.declaresField = true ∨ e.declaresField = true → d.key ≠ e.key)
    (validated : p.After .rules s)
    (lists : ∀ d ∈ s.documents.rows, d.kind = .fragment → d.name ∉ Rule.generatedFragments s)
    (clones : ∀ d ∈ (p.rewrite s).documents.rows, d.kind = .fragment →
      d.name ∉ (Inlining.finished (p.rewrite s)).clones) :
    UniqueNames (p.definitions.map (·.key)) ∧
      UniqueNames (c.store.documents.rows.map (·.key)) := by
  obtain ⟨s₀, s₁, prepared, analysed, hstore⟩ := compile_clean h clean
  obtain rfl : s₁ = s := (After.of_analyse prepared analysed).unique validated nofun
  constructor
  · refine List.pairwise_map.mpr (((definitions_names prepared analysed).and fields).imp ?_)
    exact fun ⟨apart, apart'⟩ hsame => (apart hsame).resolve_right fun hd => apart' hd hsame
  have ready := analyse_ready (prepare_ready prepared).1 (prepare_ready prepared).2 analysed
  obtain ⟨G, handed⟩ := Inlining.handed (handover?_of_analyse prepared analysed rfl)
  obtain ⟨unique, nodup⟩ := analyse_names prepared analysed
  obtain ⟨listed, cloned, rows, rows', keys, keys'⟩ := rows_transform ready handed
  have apart {ds : List DocumentRow} {names : List String}
      (hds : ∀ d ∈ ds, d.kind = .fragment → d.name ∉ names) :
      ∀ a ∈ ds.map (·.key), ∀ b ∈ names.map (DocumentKind.fragment, ·), a = b → a.2 = "" := by
    rintro _ ha _ hb rfl
    obtain ⟨d, hd, heq⟩ := List.mem_map.mp ha
    obtain ⟨name, hname, rfl⟩ := List.mem_map.mp hb
    cases d
    cases heq
    exact absurd hname (hds _ hd rfl)
  rw [hstore]
  change UniqueNames ((p.transform s₁).1.documents.rows.map _)
  rw [rows', List.map_append, uniqueNames_append, List.map_append, uniqueNames_append, keys, keys']
  refine ⟨⟨unique, uniqueNames_of_nodup nodup, apart lists⟩,
    uniqueNames_of_nodup handed.ran.held.distinct, ?_⟩
  rw [← keys, ← List.map_append, ← rows]
  exact apart clones

/-- The definitions of a text. -/
def definitionsOf (cs : List Char) : List Definition := (documentChars cs).toOption.getD []

theorem definitions_of_spelling (x : Spelling p)
    (inline : ∀ source ∈ p.sources, source.inline = false) :
    p.definitions = x.sources.flatMap definitionsOf := by
  have contents : p.sources.flatMap (·.definitions) = (p.sources.map (·.content)).flatMap
      fun text => (parseDocument text).toOption.getD [] := by
    rw [List.flatMap_map]
    refine List.flatMap_congr fun source hsource => ?_
    rw [Source.definitions, inline source hsource]
    cases parseDocument source.content <;> rfl
  rw [definitions, contents, x.sources_eq, List.flatMap_map]
  exact List.flatMap_congr fun cs _ => by rw [parseDocument_ofList, definitionsOf]

/-- After eight tasks the inliner is done, and it has given out no name that was taken. Nor have the
lists, and both did give out names. -/
def givesFreshNames (s handed : Store) : Bool :=
  let w := (Inlining.start handed).run 8
  w.isDone && !w.clones.isEmpty && !(Rule.generatedFragments s).isEmpty &&
    s.documents.rows.all (fun d => !(Rule.generatedFragments s).contains d.name) &&
    handed.documents.rows.all fun d => !w.clones.contains d.name

set_option maxRecDepth 100000 in
theorem gallery_givesFreshNames :
    (gallerySpelling.analysis?.any fun e => givesFreshNames e.2 (gallery.rewrite e.2)) := by
  decide +kernel

set_option maxRecDepth 100000 in
theorem gallery_keys_differ : gallery.definitions.Pairwise fun d e =>
    d.declaresField ∨ e.declaresField → d.key ≠ e.key := by
  rw [definitions_of_spelling gallerySpelling (by decide)]
  decide +kernel

/-- The names in the gallery are unique, with those of its list and of the clone. -/
theorem gallery_names_unique : ∃ c s, gallery.compile false = .ok c ∧ c.diagnostics = [] ∧
    gallery.After .rules s ∧ Rule.generatedFragments s ≠ [] ∧
    (Inlining.finished (gallery.rewrite s)).clones ≠ [] ∧
    UniqueNames (gallery.definitions.map (·.key)) ∧
    UniqueNames (c.store.documents.rows.map (·.key)) := by
  obtain ⟨s₀, s, prepared, analysed, check⟩ :=
    gallerySpelling.exists_of_any gallery_givesFreshNames
  obtain ⟨c, compiled, clean, -⟩ := compile_of_analyse prepared analysed
  obtain ⟨G, handed⟩ := Inlining.handed (handover?_of_analyse prepared analysed rfl)
  simp only [givesFreshNames, Bool.and_eq_true, Bool.not_eq_true', List.isEmpty_eq_false_iff,
    List.all_eq_true, List.contains_eq_mem, decide_eq_false_iff_not] at check
  obtain ⟨⟨⟨⟨done, cloned⟩, listed⟩, lists⟩, clones⟩ := check
  rw [← handed.finished_eq done] at cloned clones
  have validated := After.of_analyse prepared analysed
  exact ⟨c, s, compiled, clean, validated, listed, cloned, names_unique compiled clean
    gallery_keys_differ validated (fun d hd _ => lists d hd) fun d hd _ => clones d hd⟩

/-- Two fragments of one name, of which one declares a component field. -/
def twins : Project where
  schema := "type Query \x7b user: User \x7d type User \x7b id: ID \x7d"
  sources := [{
    filepath := "twins.graphql"
    content := "fragment Foo on User @componentField(prop: \"user\", field: \"Avatar\") \x7b id \x7d
      fragment Foo on User \x7b id \x7d
      query Q \x7b user \x7b ...Foo \x7d \x7d" }]

set_option maxRecDepth 10000 in
def twinsSpelling : Spelling twins := ⟨_, [_], rfl, rfl⟩

set_option maxRecDepth 100000 in
theorem twins_analyse : (twinsSpelling.analysis?.any fun _ => true) := by
  decide +kernel

set_option maxRecDepth 100000 in
/-- Nothing wrong is found with the twins: the one that declares a component field gets another name
before names are compared. -/
theorem twins_compile : ∃ c, twins.compile false = .ok c ∧ c.diagnostics = [] ∧
    ¬ UniqueNames (twins.definitions.map (·.key)) := by
  obtain ⟨s₀, s, prepared, analysed, -⟩ := twinsSpelling.exists_of_any twins_analyse
  obtain ⟨c, compiled, clean, -⟩ := compile_of_analyse prepared analysed
  refine ⟨c, compiled, clean, ?_⟩
  rw [definitions_of_spelling twinsSpelling (by decide)]
  decide +kernel

end Project

end GraphDoc
