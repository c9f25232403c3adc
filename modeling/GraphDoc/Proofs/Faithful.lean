import GraphDoc.Proofs.Loaded
import GraphDoc.Proofs.Loading

/-!
# The loader is faithful

Each definition becomes one document, in order. `Grammar.Definition.outline` says what the document
shows, and `Store.readDocument` reads it; rows of earlier documents stay as they were.
-/

set_option autoImplicit false

namespace GraphDoc

open Grammar Table

/-- A document with all that it shows. The selections have no numbers. -/
structure Outline where
  row : DocumentRow
  declarations : List (String × TypeRef × Option Value)
  directives : List DirectiveNode
  selections : List SelectionNode

namespace Grammar

def VariableDefinition.declared (v : VariableDefinition) : String × TypeRef × Option Value :=
  (v.name, .ofExpr v.type, v.default?.map (·.toValue))

/-- An argument that a fragment declares, unless it has no type. -/
def declaredArgument (a : String × Literal) : List (String × TypeRef × Option Value) :=
  match Store.declaredType? a.2.toValue with
  | none => []
  | some type => [(a.1, type, a.2.toValue.field? "default")]

def Fragment.declared (f : Fragment) : List (String × TypeRef × Option Value) :=
  (f.directives.filter (·.name == Framework.argumentsTag)).flatMap fun d =>
    d.arguments.flatMap declaredArgument

/-- What a definition of a source says. -/
def Definition.outline (schema : Schema) (source : Int) : Definition → Outline
  | .operation o =>
    { row := ⟨o.name?.getD "", source, o.kind, schema.rootType? o.kind, o.position⟩
      declarations := o.declarations.map (·.declared)
      directives := o.directives.map (·.node)
      selections := Selection.nodes schema (schema.rootType? o.kind) o.selections }
  | .fragment f =>
    { row := ⟨f.name, source, .fragment, some f.condition, f.position⟩
      declarations := f.declared
      directives := f.directives.map (·.node)
      selections := Selection.nodes schema (some f.condition) f.selections }

end Grammar

/-- The definitions that a source contributes. A source that does not parse has none, and an inline
one has the fragment that it stands for. -/
def Source.definitions (source : Source) : List Definition :=
  match parseDocument source.content with
  | .error _ => []
  | .ok ds =>
    if source.inline then
      match InlineField.fragment ds source.prop? with
      | .ok f => [.fragment f]
      | .error _ => []
    else ds

/-- The report on a source that does not parse, at the place where it starts in its file plus the
position that the parser stopped at. -/
def Source.misparse? (source : Source) : Option Diagnostic :=
  match parseDocument source.content with
  | .error p => some ⟨.parse, Failure.parseErrorText p, [⟨source.filepath,
      source.offsetLine + UInt32.ofNat p.line.toNat,
      source.offsetColumn + UInt32.ofNat p.column.toNat⟩]⟩
  | .ok _ => none

namespace Store

variable {s : Store} {document : Int}

/-! ## Variables -/

def readVariable (s : Store) (v : Int × VariableRow) :
    Except Failure (String × TypeRef × Option Value) :=
  match v.2.default? with
  | none => .ok (v.2.name, v.2.type, none)
  | some id => do return (v.2.name, v.2.type, some (← s.value id))

theorem variablesOf_addVariable (s : Store) (row : VariableRow) (document : Int) :
    (s.addVariable row).1.variablesOf document = s.variablesOf document ++
      if row.document = document then [(s.declarations.nextId, row)] else [] := by
  simp only [variablesOf, addVariable, entries_push, List.filter_append]
  by_cases h : row.document = document <;> simp [h]

theorem seated_variables (document : Int) (low : Seat → Nat) :
    Seated .variable document low (fun a b => Clear (a .variable) (b .variable) document)
      (fun s => s.variablesOf document) :=
  ⟨fun h => h, fun h _ hx => h.variablesOf hx⟩

theorem declare_writes (hs : s.Closed) (hd : s.documents.contains document)
    (source : Source) (p : Position) (name label : String) (type : TypeRef)
    (default? : Option Value) :
    Writes (fun a b => Clear (a .variable) (b .variable) document)
      (fun s => s.variablesOf document) readVariable s
      (s.declare source document p name label type default?).1 [(name, type, default?)] := by
  cases default? with
  | none =>
    refine ⟨fun a b _ free => (Appends.refl a b s).addVariable hd nofun free, _,
      s.variablesOf_addVariable ⟨document, name, type, none, p⟩ document, fun t _ => ?_⟩
    rw [if_pos rfl]
    rfl
  | some value =>
    rw [declare]
    simp only [addValue_snd]
    apply addValue_writes
      (fun r => (r.addVariable ⟨document, name, type, some s.values.nextId, p⟩).1)
      (fun r => (r.declarations.nextId, ⟨document, name, type, some s.values.nextId, p⟩)) hs
    · exact fun o h => Option.some.inj h ▸ hd
    · exact fun b => .inl (le_issued_of_contains hd)
    · intro a b r new here free
      exact (Appends.refl a b r).addVariable (new.documents.contains hd)
        (fun v h => Option.some.inj h ▸ here) free
    · intro r new
      rw [variablesOf_addVariable, if_pos rfl, new.variablesOf (not_clear hd)]
    · intro r t value
      simp only [readVariable, value]
      rfl

theorem loadVariable_writes (hs : s.Closed) (hd : s.documents.contains document)
    (source : Source) (v : VariableDefinition) :
    Writes (fun a b => Clear (a .variable) (b .variable) document)
      (fun s => s.variablesOf document) readVariable s (loadVariable source document s v).1
      [v.declared] :=
  declare_writes hs hd ..

theorem loadFragmentArgument_writes (hs : s.Closed) (hd : s.documents.contains document)
    (source : Source) (p : Position) (a : String × Literal) :
    Writes (fun a b => Clear (a .variable) (b .variable) document)
      (fun s => s.variablesOf document) readVariable s
      (loadFragmentArgument source document p s a).1 (declaredArgument a) := by
  rw [loadFragmentArgument, declaredArgument]
  cases declaredType? a.2.toValue with
  | none => exact .nil s
  | some type => exact declare_writes hs hd ..

theorem loadEach_fst {α : Type} (step : Store → α → Store × Diagnostics) (s : Store)
    (xs : List α) : (loadEach step s xs).1 = xs.foldl (fun s a => (step s a).1) s := by
  induction xs generalizing s with
  | nil => rfl
  | cons a xs ih => exact ih (step s a).1

/-- What is kept while variables are declared. -/
def Declarable (document : Int) (s : Store) : Prop :=
  s.Closed ∧ s.documents.contains document = true

theorem Declarable.kept {a b : Seat → Nat} {s r : Store} (h : Appends a b s r)
    (hs : Declarable document s) : Declarable document r :=
  ⟨h.closed hs.1, h.documents.contains hs.2⟩

theorem loadVariables_writes (hs : Declarable document s) (source : Source)
    (vs : List VariableDefinition) :
    Writes (fun a b => Clear (a .variable) (b .variable) document)
      (fun s => s.variablesOf document) readVariable s
      (loadEach (loadVariable source document) s vs).1 (vs.map (·.declared)) := by
  rw [loadEach_fst]
  exact Writes.foldl_map Declarable.kept (fun _ hs _ => .inl (le_issued_of_contains hs.2)) vs
    (fun _ hs v _ => loadVariable_writes hs.1 hs.2 source v) hs

theorem loadFragmentArguments_writes (hs : Declarable document s) (source : Source)
    (ds : List Directive) :
    Writes (fun a b => Clear (a .variable) (b .variable) document)
      (fun s => s.variablesOf document) readVariable s
      (loadEach (fun s d => loadEach (loadFragmentArgument source document d.position) s
        d.arguments) s ds).1
      (ds.flatMap fun d => d.arguments.flatMap declaredArgument) := by
  rw [loadEach_fst]
  refine Writes.foldl Declarable.kept (fun _ hs _ => .inl (le_issued_of_contains hs.2)) ds
    (fun _ hs d _ => ?_) hs
  rw [loadEach_fst]
  exact Writes.foldl Declarable.kept (fun _ hs _ => .inl (le_issued_of_contains hs.2))
    d.arguments (fun _ hs a _ => loadFragmentArgument_writes hs.1 hs.2 source d.position a) hs

/-! ## Documents -/

def readDocument (s : Store) (d : Int × DocumentRow) : Except Failure Outline := do
  let declarations ← (s.variablesOf d.1).mapM s.readVariable
  let directives ← s.directiveNodes .document d.1
  let selections ← s.selectionTree d.1
  return ⟨d.2, declarations, directives,
    SelectionNode.rewriteAll (fun _ => 0) (fun _ row => row) (fun v => v) selections⟩

/-- The ways in which rows are put on a document. -/
def documentSeats : List Seat := [.variable, .directive .document, .root]

theorem seated_root (document : Int) (low : Seat → Nat) :
    Seated .root document low (fun a b => ClearPlace a b document none)
      (fun s => s.placesAt document none) := by
  refine ⟨fun h => ?_, fun h _ hx => h.placesAt ?_⟩
  · rcases h with h | h
    · exact .inr ⟨nofun, fun _ => h⟩
    · exact .inl h
  · rintro (hlt | ⟨-, root⟩)
    · exact hx (.inr hlt)
    · exact hx (.inl (root rfl))

theorem Closed.roots_eq_nil (h : s.Closed) (hd : (s.documents.issued : Int) < document) :
    s.placesAt document none = [] := by
  have none : s.placements.rows.filter (·.document = document) = [] := by
    refine List.filter_eq_nil_iff.mpr fun p hp => ?_
    have := le_issued_of_contains (h.placements p hp).2.2
    simp only [decide_eq_true_eq]
    omega
  rw [placesAt, none]
  rfl

theorem addDocument_newRow (s : Store) (row : DocumentRow)
    (hs : s.sources.contains row.source) :
    NewRow documentSeats s.documents.nextId s (s.addDocument row).1 := by
  have added := (Appends.refl s.marks s.marks s).addDocument _ hs
    (.inl (le_issued_of_contains hs))
  refine ⟨added.marks_le, fun k hk => ?_, fun k hk => ?_⟩ <;>
  simp only [documentSeats, List.mem_cons, List.not_mem_nil, or_false] at hk
  · rcases hk with rfl | rfl | rfl <;> exact s.documents.issued_lt_nextId
  · rcases hk with rfl | rfl | rfl <;>
    exact le_issued_of_contains (contains_push_nextId ..)

theorem loadBody_writes {row : DocumentRow} {s₃ : Store}
    {declarations : List (String × TypeRef × Option Value)} {directives : List DirectiveNode}
    (hs : s.Closed) (hsource : s.sources.contains row.source)
    (dressed : Furnishes [.variable, .directive .document] s.documents.nextId
      (s.addDocument row).1 s₃)
    (reads : ∀ r, Furnishes [.root] s.documents.nextId s₃ r → ∀ t, Appends s.marks r.marks r t →
      (t.variablesOf s.documents.nextId).mapM t.readVariable = .ok declarations ∧
      t.directiveNodes .document s.documents.nextId = .ok directives)
    (scope? : Option String) {xs : List Selection}
    (hxs : ∀ x ∈ xs, x.WellFormed Grammar.depthLimit) :
    Writes (fun a b => Clear (a .document) (b .document) row.source) (fun s => s.documents.entries)
      readDocument s (loadSelections s.documents.nextId scope? none 0 s₃ xs)
      [⟨row, declarations, directives, Selection.nodes s.schema scope? xs⟩] := by
  have opened := addDocument_newRow s row hsource
  have pos : 0 < s.documents.nextId := opened.pos List.mem_cons_self
  have here : (s.addDocument row).1.documents.contains s.documents.nextId :=
    contains_push_nextId ..
  have step := fun a b free => (Appends.refl a b s).addDocument row hsource free
  have added := step s.marks s.marks (.inl (le_issued_of_contains hsource))
  have seated := seated_root s.documents.nextId s.marks
  have root : Seat.root ∈ documentSeats := by simp [documentSeats]
  have sub : ∀ j ∈ [Seat.variable, .directive .document], j ∈ documentSeats ∧ j ≠ .root := by
    simp [documentSeats]
  have nothing : (s.addDocument row).1.placesAt s.documents.nextId none = [] :=
    hs.roots_eq_nil s.documents.issued_lt_nextId
  have grown := dressed unmarked s.marks opened.marks_le fun k hk =>
    .inr (opened.new k (sub k hk).1)
  have selections := loadSelections_writes none 0 scope?
    (m := Failure.depthLimit) (grown.closed (added.closed hs)) (grown.documents.contains here)
    nofun (fun q hq => by
      rw [opened.view_eq seated root (fun _ => Nat.le_refl _) dressed sub, nothing] at hq
      cases hq) xs fun x hx => (hxs x hx).mono (by decide)
  rw [grown.schema, show (s.addDocument row).1.schema = s.schema from rfl] at selections
  have body := selections.furnishes seated
  have all : Furnishes documentSeats _ _ _ := dressed.trans body pos
  refine opened.writes step all (s.documents.entries_push row) (fun h => ?_) fun t later => ?_
  · rw [h.documents_eq (h.closed (added.closed hs)) rfl (Nat.le_refl _)]
  · have filled := all unmarked s.marks opened.marks_le fun k hk => .inr (opened.new k hk)
    have tree := opened.reads seated root nothing dressed selections (.refl _ _) sub nofun later
    obtain ⟨hv, hd⟩ := reads _ body t later
    rw [← (later.closed (filled.closed (added.closed hs))).level_unnumbered] at tree
    simp only [readDocument, hv, hd, selectionTree]
    cases found : t.level (t.placed s.documents.nextId) (Failure.depthLimit + 1) none with
    | error e =>
      rw [found] at tree
      cases tree
    | ok nodes =>
      rw [found] at tree
      rw [← Except.ok.inj tree]
      rfl

theorem loadOperation_writes (hs : s.Closed) (source : Source) {sourceId : Int}
    (hsource : s.sources.contains sourceId) {o : Operation} (ho : o.WellFormed) :
    Writes (fun a b => Clear (a .document) (b .document) sourceId) (fun s => s.documents.entries)
      readDocument s (s.loadOperation source sourceId o).1
      [(Definition.operation o).outline s.schema sourceId] := by
  rw [loadOperation, Definition.outline]
  simp only
  let row : DocumentRow :=
    ⟨o.name?.getD "", sourceId, o.kind, s.schema.rootType? o.kind, o.position⟩
  have opened := addDocument_newRow s row hsource
  have here : (s.addDocument row).1.documents.contains s.documents.nextId :=
    contains_push_nextId ..
  have added := (Appends.refl s.marks s.marks s).addDocument row hsource
    (.inl (le_issued_of_contains hsource))
  have pos : 0 < s.documents.nextId := opened.pos List.mem_cons_self
  have seated₁ := seated_variables s.documents.nextId s.marks
  have seated₂ := seated_directives .document s.documents.nextId s.marks
  have declared := loadVariables_writes ⟨added.closed hs, here⟩ source o.declarations
  have furnished₁ := declared.furnishes seated₁
  have grown := furnished₁ unmarked unmarked (fun _ => Nat.zero_le _) fun _ _ => .inr pos
  have directed := loadDirectives_writes .document (grown.closed (added.closed hs))
    (grown.documents.contains here) (grown.documents.contains here) o.directives
  have furnished₂ := directed.furnishes seated₂
  refine loadBody_writes hs hsource (furnished₁.trans furnished₂ pos)
    (fun r body t later => ⟨?_, ?_⟩) _ ho.selections
  · exact opened.reads seated₁ (by simp [documentSeats])
      (hs.variablesOf_eq_nil s.documents.issued_lt_nextId) (.refl _ _) declared
      (furnished₂.trans body pos) nofun (by simp [documentSeats]) later
  · exact opened.reads seated₂ (by simp [documentSeats])
      (hs.usesOf_eq_nil .document s.documents.issued_lt_nextId) furnished₁ directed body
      (by simp [documentSeats]) (by simp [documentSeats]) later

theorem loadFragment_writes (hs : s.Closed) (source : Source) {sourceId : Int}
    (hsource : s.sources.contains sourceId) {f : Fragment} (hf : f.WellFormed) :
    Writes (fun a b => Clear (a .document) (b .document) sourceId) (fun s => s.documents.entries)
      readDocument s (s.loadFragment source sourceId f).1
      [(Definition.fragment f).outline s.schema sourceId] := by
  rw [loadFragment, Definition.outline]
  simp only
  let row : DocumentRow := ⟨f.name, sourceId, .fragment, some f.condition, f.position⟩
  have opened := addDocument_newRow s row hsource
  have here : (s.addDocument row).1.documents.contains s.documents.nextId :=
    contains_push_nextId ..
  have added := (Appends.refl s.marks s.marks s).addDocument row hsource
    (.inl (le_issued_of_contains hsource))
  have pos : 0 < s.documents.nextId := opened.pos List.mem_cons_self
  have seated₁ := seated_variables s.documents.nextId s.marks
  have seated₂ := seated_directives .document s.documents.nextId s.marks
  have directed := loadDirectives_writes .document (added.closed hs) here here
    f.directives
  have furnished₂ := directed.furnishes seated₂
  have grown := furnished₂ unmarked unmarked (fun _ => Nat.zero_le _) fun _ _ => .inr pos
  have declared := loadFragmentArguments_writes ⟨grown.closed (added.closed hs),
    grown.documents.contains here⟩ source
    (f.directives.filter (·.name == Framework.argumentsTag))
  have furnished₁ := declared.furnishes seated₁
  refine loadBody_writes hs hsource
    ((furnished₂.trans furnished₁ pos).mono (by simp)) (fun r body t later => ⟨?_, ?_⟩) _
    hf.selections
  · exact opened.reads seated₁ (by simp [documentSeats])
      (hs.variablesOf_eq_nil s.documents.issued_lt_nextId) furnished₂ declared body
      (by simp [documentSeats]) (by simp [documentSeats]) later
  · exact opened.reads seated₂ (by simp [documentSeats])
      (hs.usesOf_eq_nil .document s.documents.issued_lt_nextId) (.refl _ _) directed
      (furnished₁.trans body pos) nofun (by simp [documentSeats]) later

theorem loadDefinition_writes (hs : s.Closed) (source : Source) {sourceId : Int}
    (hsource : s.sources.contains sourceId) {d : Definition} (hd : d.WellFormed) :
    Writes (fun a b => Clear (a .document) (b .document) sourceId) (fun s => s.documents.entries)
      readDocument s (s.loadDefinition source sourceId d).1 [d.outline s.schema sourceId] := by
  cases d with
  | operation o => exact loadOperation_writes hs source hsource hd
  | fragment f => exact loadFragment_writes hs source hsource hd

/-! ## Sources -/

theorem loadSource_writes (hs : s.Closed) {e : Int × Source}
    (he : s.sources.contains e.1) :
    Writes (fun a b => Clear (a .document) (b .document) e.1) (fun s => s.documents.entries)
      readDocument s (s.loadSource e).1 (e.2.definitions.map (·.outline s.schema e.1)) := by
  rw [loadSource, Source.definitions]
  cases hp : parseDocument e.2.content with
  | error p => exact .nil s
  | ok ds =>
    have hw := wellFormed_of_parseDocument hp
    simp only
    split
    · cases hf : InlineField.fragment ds e.2.prop? with
      | error issue => exact .nil s
      | ok f => exact loadFragment_writes hs e.2 he (wellFormed_of_inlineField hw hf)
    · rw [loadEach_fst]
      refine Writes.foldl_map (P := fun s' => s'.Closed ∧ s'.sources = s.sources ∧
        s'.schema = s.schema) (fun h hs => ⟨h.closed hs.1, h.sources.trans hs.2.1,
          h.schema.trans hs.2.2⟩) (fun s' hs' _ => ?_) ds (fun s' hs' d hd => ?_) ⟨hs, rfl, rfl⟩
      · exact .inl (le_issued_of_contains (hs'.2.1 ▸ he))
      · have one := loadDefinition_writes hs'.1 e.2 (hs'.2.1 ▸ he) (hw d hd)
        rw [hs'.2.2] at one
        exact one

theorem loadSources_writes (hs : s.Closed) :
    Writes (fun a _ => s.sources.issued ≤ a .document) (fun s => s.documents.entries)
      readDocument s s.loadSources.1
      (s.sources.entries.flatMap fun e => e.2.definitions.map (·.outline s.schema e.1)) := by
  rw [loadSources, loadEach_fst]
  refine Writes.foldl (P := fun s' => s'.Closed ∧ s'.sources = s.sources ∧ s'.schema = s.schema)
    (fun h hs => ⟨h.closed hs.1, h.sources.trans hs.2.1, h.schema.trans hs.2.2⟩)
    (fun s' hs' _ => ?_) s.sources.entries (fun s' hs' e he => ?_) ⟨hs, rfl, rfl⟩
  · exact Nat.le_of_eq (congrArg issued hs'.2.1.symm)
  · have here : s.sources.contains e.1 := contains_of_get? (get?_of_mem he)
    have one := loadSource_writes hs'.1 (hs'.2.1 ▸ here)
    rw [hs'.2.2] at one
    refine one.restrict fun a b ha => .inl ?_
    have := le_issued_of_contains here
    omega

/-! ## Documents that were there -/

/-- `t` is `s` with more documents of the sources of `s`. -/
def Extends (s t : Store) : Prop :=
  Appends (fun k => if k = .document then s.sources.issued else 0) s.marks s t

theorem valueWithin_mono {n m : Nat} (hnm : n ≤ m) {id : Int} {v : Value}
    (h : s.valueWithin n id = .ok v) : s.valueWithin m id = .ok v := by
  induction n generalizing m id v with
  | zero => cases h
  | succ n ih =>
    obtain ⟨m, rfl⟩ : ∃ m', m = m' + 1 := ⟨m - 1, by omega⟩
    rw [valueWithin] at h ⊢
    cases hrow : s.values.get? id with
    | none =>
      rw [hrow] at h
      cases h
    | some row =>
      rw [hrow] at h
      obtain ⟨children, hc, h⟩ := bind_eq_ok.mp h
      have below := mapM_mono (g := fun link : Int × ValueLink => do
        return (link.2.name?, ← s.valueWithin m link.2.value)) (fun link _ c hl => by
          obtain ⟨w, hw, hl⟩ := bind_eq_ok.mp hl
          rw [ih (by omega) hw]
          exact hl) hc
      simp only [below]
      exact h

namespace Extends

variable {t : Store}

theorem valueWithin (h : Extends s t) (hs : s.Closed) (n : Nat) {id : Int}
    (hid : s.values.contains id) : t.valueWithin n id = s.valueWithin n id := by
  induction n generalizing id with
  | zero => rfl
  | succ n ih =>
    rw [Store.valueWithin, Store.valueWithin,
      h.values.get?_of_le (le_issued_of_contains hid), h.linksOf (not_clear hid)]
    cases s.values.get? id with
    | none => rfl
    | some row =>
      refine congrArg (fun x => x >>= _) (mapM_congr fun link hl => ?_)
      rw [ih (hs.valueLinks link.2 (mem_rows_of_mem_linksOf hl)).2]

theorem value (h : Extends s t) (hs : s.Closed) {id : Int} {v : Value}
    (hid : s.values.contains id) (hv : s.value id = .ok v) : t.value id = .ok v := by
  have := h.values.size_le
  rw [Store.value, h.valueWithin hs _ hid]
  exact valueWithin_mono (by omega) hv

theorem argumentValues (h : Extends s t) (hs : s.Closed) {x : Int}
    (hx : s.selections.contains x) {as : List (String × Value)}
    (ha : s.argumentValues x = .ok as) : t.argumentValues x = .ok as := by
  rw [Store.argumentValues, h.argumentRows (not_clear hx)]
  refine mapM_mono (fun a hm b hb => ?_) ha
  have hrow := mem_rows_of_get? (get?_of_mem (List.mem_filter.mp hm).1)
  obtain ⟨v, hv, hb⟩ := bind_eq_ok.mp hb
  rw [h.value hs (hs.fieldArguments a.2 hrow).2 hv]
  exact hb

theorem directiveNodes (h : Extends s t) (site : Site) (hs : s.Closed) {x : Int}
    (hx : s.isOwner site x) {ns : List DirectiveNode}
    (hn : s.directiveNodes site x = .ok ns) : t.directiveNodes site x = .ok ns := by
  rw [Store.directiveNodes, h.usesOf (not_clear_directive hx)]
  refine mapM_mono (fun use hm n hn => ?_) hn
  have huse : (s.directives site).uses.contains use.1 :=
    contains_of_get? (get?_of_mem (List.mem_filter.mp hm).1)
  obtain ⟨as, ha, hn⟩ := bind_eq_ok.mp hn
  have arguments : t.directiveArgumentValues site use.1 = .ok as := by
    rw [directiveArgumentValues, h.argumentsOf (not_clear huse)]
    refine mapM_mono (fun a hm b hb => ?_) ha
    have hrow := mem_rows_of_get? (get?_of_mem (List.mem_filter.mp hm).1)
    obtain ⟨v, hv, hb⟩ := bind_eq_ok.mp hb
    rw [h.value hs ((hs.directives site).arguments a.2 hrow).2 hv]
    exact hb
  rw [arguments]
  exact hn

theorem level (h : Extends s t) (parent? : Option Int) (hs : s.Closed)
    (hd : s.documents.contains document) (n : Nat) (hp : ∀ x, parent? = some x → s.selections.contains x)
    {tree : List SelectionNode} (ht : s.level (s.placed document) n parent? = .ok tree) :
    t.level (t.placed document) n parent? = .ok tree := by
  induction n generalizing parent? tree with
  | zero => cases ht
  | succ n ih =>
    rw [hs.level_succ] at ht
    rw [(h.closed hs).level_succ, h.placesAt (not_clearPlace hd hp)]
    refine mapM_mono (fun p hm n hn => ?_) ht
    have hrow := (List.mem_filter.mp (List.mem_filter.mp ((mem_sortBy_iff _ _).mp hm)).1).1
    have hx := (hs.placements p hrow).2.1
    obtain ⟨arguments, ha, hn⟩ := bind_eq_ok.mp hn
    obtain ⟨directives, hds, hn⟩ := bind_eq_ok.mp hn
    obtain ⟨children, hc, hn⟩ := bind_eq_ok.mp hn
    rw [nodeAt, h.argumentValues hs hx ha, h.directiveNodes .selection hs hx hds,
      h.selections.get?_of_le (le_issued_of_contains hx)]
    have below := ih (some p.child) (fun y hy => Option.some.inj hy ▸ hx) hc
    exact bind_eq_ok.mpr ⟨arguments, rfl, bind_eq_ok.mpr ⟨directives, rfl,
      bind_eq_ok.mpr ⟨children, below, hn⟩⟩⟩

end Extends

/-! ## Reports -/

theorem loadEach_reports {α : Type} {step : Store → α → Store × Diagnostics} {xs : List α}
    {P : Diagnostic → Prop} (h : ∀ s, ∀ x ∈ xs, ∀ d ∈ (step s x).2, P d) (s : Store) :
    ∀ d ∈ (loadEach step s xs).2, P d := by
  induction xs generalizing s with
  | nil => exact nofun
  | cons x xs ih =>
    intro d hd
    rcases List.mem_append.mp hd with hd | hd
    · exact h s x List.mem_cons_self d hd
    · exact ih (fun s y hy => h s y (List.mem_cons_of_mem x hy)) _ d hd

theorem declare_reports {source : Source} {p : Position} {name label : String} {type : TypeRef}
    {default? : Option Value} (s : Store) :
    ∀ d ∈ (s.declare source document p name label type default?).2, d.severity = .validation := by
  cases default? with
  | none => exact nofun
  | some value =>
    intro d hd
    simp only [declare] at hd
    split at hd
    · cases hd
    · cases List.mem_singleton.mp hd
      rfl

theorem loadFragment_reports (source : Source) (sourceId : Int) (s : Store) (f : Fragment) :
    ∀ d ∈ (s.loadFragment source sourceId f).2, d.severity = .validation := by
  refine loadEach_reports (fun s d _ => loadEach_reports (fun s a _ => ?_) s) _
  rw [loadFragmentArgument]
  split
  · intro d hd
    cases List.mem_singleton.mp hd
    rfl
  · exact declare_reports s

theorem loadDefinition_reports (source : Source) (sourceId : Int) (s : Store) (d : Definition) :
    ∀ r ∈ (s.loadDefinition source sourceId d).2, r.severity = .validation := by
  cases d with
  | operation o =>
    intro r hr
    rcases List.mem_append.mp hr with hr | hr
    · split at hr
      · cases List.mem_singleton.mp hr
        rfl
      · cases hr
    · exact loadEach_reports (fun s v _ => declare_reports s) _ r hr
  | fragment f => exact loadFragment_reports source sourceId s f

theorem loadSource_misparse {e : Int × Source} {d : Diagnostic} (h : e.2.misparse? = some d)
    (s : Store) : s.loadSource e = (s, [d]) := by
  rw [Source.misparse?] at h
  rw [loadSource]
  cases hp : parseDocument e.2.content with
  | error p =>
    rw [hp] at h
    cases h
    rfl
  | ok ds =>
    rw [hp] at h
    cases h

theorem loadSource_reports (s : Store) (e : Int × Source) :
    (s.loadSource e).2.filter (·.severity = .parse) = e.2.misparse?.toList := by
  rw [loadSource, Source.misparse?]
  cases parseDocument e.2.content with
  | error p => rfl
  | ok ds =>
    refine List.filter_eq_nil_iff.mpr fun d hd => ?_
    have other : d.severity = .validation := by
      simp only at hd
      split at hd
      · split at hd
        · exact loadFragment_reports _ _ _ _ d hd
        · cases List.mem_singleton.mp hd
          rfl
      · exact loadEach_reports (fun s d _ => loadDefinition_reports e.2 e.1 s d) s d hd
    rw [other]
    decide

theorem loadEach_misparses (s : Store) (es : List (Int × Source)) :
    (loadEach loadSource s es).2.filter (·.severity = .parse) =
      es.filterMap (·.2.misparse?) := by
  induction es generalizing s with
  | nil => rfl
  | cons e es ih =>
    rw [loadEach, List.filter_append, loadSource_reports, ih, List.filterMap_cons]
    cases e.2.misparse? <;> rfl

/-- Loading adds one document for each definition, in order, which shows what the definition says.
A source that does not parse adds nothing and gets one report, and no other report is of that
kind. The trees of the documents that were there stay as they were. -/
theorem loadSources_faithful (s : Store) (hs : s.closed = true) :
    (∃ new, s.loadSources.1.documents.entries = s.documents.entries ++ new ∧
      new.mapM s.loadSources.1.readDocument = .ok (s.sources.entries.flatMap fun e =>
        e.2.definitions.map (·.outline s.schema e.1))) ∧
    (∀ e d, Source.misparse? e.2 = some d → ∀ r : Store, r.loadSource e = (r, [d])) ∧
    s.loadSources.2.filter (·.severity = .parse) = s.sources.entries.filterMap (·.2.misparse?) ∧
    ∀ d tree, s.documents.contains d = true → s.selectionTree d = .ok tree →
      s.loadSources.1.selectionTree d = .ok tree := by
  have closed := s.closed_iff.mp hs
  have writes := loadSources_writes closed
  obtain ⟨new, entries, reads⟩ := writes.shows
  have extends' : Extends s s.loadSources.1 :=
    writes.appends _ s.marks (fun _ => Nat.le_refl _) (Nat.le_refl _)
  refine ⟨⟨new, entries, reads _ (.refl _ _ _)⟩, fun e d h r => loadSource_misparse h r,
    loadEach_misparses s _, fun d tree hd ht => ?_⟩
  exact extends'.level none closed hd _ nofun ht

/-- A store with a document, a source that parses and one that does not. -/
def userStore : Store :=
  { Store.empty with
    schema :=
      { types := ⟨[("Query", ⟨.object, some .query, false, false⟩),
          ("User", ⟨.object, none, false, false⟩), ("String", ⟨.scalar, none, true, false⟩)]⟩
        fields := ⟨[("Query.user", ⟨"Query", "user", ⟨"User", ""⟩, none, none, false⟩),
          ("User.name", ⟨"User", "name", ⟨"String", ""⟩, none, none, false⟩)]⟩ }
    sources := (Table.push default
        { filepath := "src/User.ts"
          content :=
            "query Names \x7b user \x7b ... on User \x7b called: name \x7d \x7d \x7d" }).push
      { filepath := "src/Broken.ts", content := "query \x7b", offsetLine := 3, offsetColumn := 7 }
    documents := Table.push default ⟨"Old", 1, .query, some "Query", ⟨1, 1⟩⟩
    selections := Table.push default ⟨"user", none, .field, some "Query.user"⟩
    placements := Table.push default ⟨none, 1, 1, 0, ⟨1, 3⟩⟩ }

theorem userStore_loads : userStore.closed = true ∧
    (∃ new, userStore.loadSources.1.documents.entries = userStore.documents.entries ++ new ∧
      new.mapM userStore.loadSources.1.readDocument = .ok (userStore.sources.entries.flatMap
        fun e => e.2.definitions.map (·.outline userStore.schema e.1))) ∧
    userStore.loadSources.1.selectionTree 1 =
      .ok [.node 1 ⟨"user", none, .field, some "Query.user"⟩ [] [] []] := by
  have closed : userStore.closed = true := by decide
  have loaded := loadSources_faithful userStore closed
  exact ⟨closed, loaded.1, loaded.2.2.2 1 _ (by decide) rfl⟩

end Store

end GraphDoc
