import GraphDoc.Proofs.Grammar.Writing
import GraphDoc.Proofs.References
import GraphDoc.Proofs.Targets

/-!
# Printed documents load again

A document that was loaded from a text without floats and without U+0008, under a schema that has
the fields that it selects, is printed as a text that parses as one definition. Loaded by itself,
this text gives the document again, without the labels that are the names of their fields.
-/

set_option autoImplicit false

namespace GraphDoc

open Grammar Table

/-! ## Printed outlines -/

def printDefault : Option Value → String
  | none => ""
  | some value => " = " ++ value.print

/-- A declaration of a variable as it is printed. -/
def printDeclaration (v : String × TypeRef × Option Value) : String :=
  "$" ++ v.1 ++ ": " ++ v.2.1.text ++ printDefault v.2.2

namespace Outline

/-- What stands before the directives of a document. -/
def head (o : Outline) : String :=
  match o.row.kind with
  | .fragment => "fragment " ++ o.row.name ++ " on " ++ o.row.condition?.getD ""
  | kind =>
    kind.text ++ (if o.row.name.isEmpty then "" else " " ++ o.row.name) ++
      if o.declarations.isEmpty then ""
      else "(" ++ Text.joinWith ", " (o.declarations.map printDeclaration) ++ ")"

def print (o : Outline) : String :=
  o.head ++ printDirectives o.directives ++ " \x7b\n" ++ SelectionNode.printAll "  " o.selections ++
    "\x7d"

theorem head_of_isOperation {o : Outline} (h : o.row.kind.isOperation) :
    o.head = o.row.kind.text ++ (if o.row.name.isEmpty then "" else " " ++ o.row.name) ++
      if o.declarations.isEmpty then ""
      else "(" ++ Text.joinWith ", " (o.declarations.map printDeclaration) ++ ")" := by
  rw [head]
  cases hk : o.row.kind with
  | fragment =>
    rw [hk] at h
    cases h
  | query | mutation | subscription => rfl

/-- Whether there is no float and no U+0008 in the values of a document. -/
def isClear (o : Outline) : Bool :=
  o.declarations.all (fun v => v.2.2.all (·.isClear)) && o.directives.all (·.isClear) &&
    SelectionNode.allClear o.selections

/-- Whether the schema has all fields that a document selects. -/
def resolves (schema : Schema) (o : Outline) : Bool :=
  SelectionNode.allResolve schema o.selections

/-- The second document is the first one without labels that are the names of their fields. Their
sources and positions may differ. -/
structure Restates (o o' : Outline) : Prop where
  kind : o'.row.kind = o.row.kind
  name : o'.row.name = o.row.name
  condition : o'.row.condition? = o.row.condition?
  declarations : o'.declarations = o.declarations
  directives : o'.directives = o.directives
  selections : o'.selections = SelectionNode.allPlain o.selections

end Outline

namespace SelectionNode

mutual

theorem print_rewrite (ids : Int → Int) (indent : String) : (n : SelectionNode) →
    (n.rewrite ids (fun _ row => row) (fun v => v)).print indent = n.print indent
  | node id row arguments directives children => by
    have below := printAll_rewriteAll ids ("  " ++ indent) children
    rw [rewrite, List.map_id']
    cases children with
    | nil => rfl
    | cons n ns =>
      rw [rewriteAll] at below ⊢
      rw [print, print, below]
      · exact nofun
      · exact nofun

theorem printAll_rewriteAll (ids : Int → Int) (indent : String) : (ns : List SelectionNode) →
    printAll indent (rewriteAll ids (fun _ row => row) (fun v => v) ns) = printAll indent ns
  | [] => rfl
  | n :: ns => by
    rw [rewriteAll, printAll, printAll, print_rewrite ids indent n,
      printAll_rewriteAll ids indent ns]

end

end SelectionNode

namespace Store

variable {s : Store}

theorem printVariable_of_readVariable {v : Int × VariableRow}
    {declared : String × TypeRef × Option Value} (h : s.readVariable v = .ok declared) :
    s.printVariable v.2 = .ok (printDeclaration declared) := by
  rw [readVariable] at h
  rw [printVariable]
  cases hd : v.2.default? with
  | none =>
    rw [hd] at h
    cases h
    simp only [printDeclaration, printDefault, String.append_empty]
    rfl
  | some id =>
    rw [hd] at h
    obtain ⟨value, hvalue, h⟩ := bind_eq_ok.mp h
    cases h
    simp only [hvalue, printDeclaration, printDefault, String.append_assoc]
    rfl

theorem printDocument_of_readDocument {id : Int} {row : DocumentRow}
    (hrow : s.documents.get? id = some row) {o : Outline} (h : s.readDocument (id, row) = .ok o) :
    s.printDocument id = .ok o.print := by
  obtain ⟨declarations, hdeclarations, h⟩ := bind_eq_ok.mp h
  obtain ⟨directives, hdirectives, h⟩ := bind_eq_ok.mp h
  obtain ⟨tree, htree, h⟩ := bind_eq_ok.mp h
  cases h
  have printed : (s.variablesOf id).mapM (fun v => s.printVariable v.2) =
      .ok (declarations.map printDeclaration) := by
    refine mapM_mono (f := fun v => (s.readVariable v).map printDeclaration) (fun v _ text ht => ?_)
      (by rw [mapM_map_result, hdeclarations]; rfl)
    cases hread : s.readVariable v with
    | error e =>
      rw [hread] at ht
      cases ht
    | ok declared =>
      rw [hread] at ht
      cases ht
      exact printVariable_of_readVariable hread
  have head : s.printHead id row = .ok (Outline.head ⟨row, declarations, directives,
      SelectionNode.rewriteAll (fun _ => 0) (fun _ row => row) (fun v => v) tree⟩) := by
    rw [printHead, Outline.head]
    cases row.kind with
    | fragment => rfl
    | query | mutation | subscription =>
      refine bind_eq_ok.mpr ⟨_, printed, ?_⟩
      rw [List.isEmpty_map]
      rfl
  simp only [printDocument, hrow, head, hdirectives, htree, Outline.print,
    SelectionNode.printAll_rewriteAll]
  rfl

end Store

namespace Grammar

/-! ## Printed definitions -/

/-- The type of which a definition selects fields. -/
def Definition.scope? (schema : Schema) : Definition → Option String
  | .operation o => schema.rootType? o.kind
  | .fragment f => some f.condition

/-- The definition as it is printed. -/
def Definition.settled (schema : Schema) : Definition → Definition
  | .operation o =>
    .operation { o with
      selections := Selection.allSettled schema (schema.rootType? o.kind) o.selections }
  | .fragment f =>
    .fragment { f with selections := Selection.allSettled schema (some f.condition) f.selections }

theorem ProperBody.settled {schema : Schema} (named : NamesTypes schema) {xs : List Selection}
    (h : ProperBody xs) {scope : String} (hscope : IsName scope)
    (resolves : SelectionNode.allResolve schema (Selection.nodes schema (some scope) xs)) :
    ProperBody (Selection.allSettled schema (some scope) xs) := by
  rw [allResolve_nodes] at resolves
  rw [Selection.allSettled_eq]
  refine ⟨by simpa using h.1, List.forall_mem_map.mpr fun x hx => ?_⟩
  exact (h.2 x hx).settled named hscope (resolves x hx)

theorem Definition.Proper.settled {schema : Schema} (named : NamesTypes schema) {d : Definition}
    (h : d.Proper) {scope : String} (hd : d.scope? schema = some scope) (hscope : IsName scope)
    {source : Int} (resolves : (d.outline schema source).resolves schema) :
    (d.settled schema).Proper := by
  cases d with
  | operation o =>
    have hd : schema.rootType? o.kind = some scope := hd
    rw [Outline.resolves, Definition.outline, hd] at resolves
    rw [Definition.settled, hd]
    exact ⟨h.kind, h.name, h.declarations, h.directives, h.body.settled named hscope resolves⟩
  | fragment f =>
    cases hd
    exact ⟨h.name, h.condition, h.directives, h.body.settled named hscope resolves⟩

theorem reads_declaration {depth : Nat} (room : depth + (depthLimit - 1) ≤ depthLimit)
    {v : VariableDefinition} (h : v.Proper) (clear : v.declared.2.2.all (·.isClear)) :
    Reads depth (printDeclaration v.declared) v.tokens := by
  intro r rs stop hr
  have type := reads_type h.type room
  rw [← TypeRef.text_ofExpr h.type.isName_base] at type
  have rest : Yields depth ((TypeRef.ofExpr v.type).text.toList ++
      ((printDefault (v.default?.map (·.toValue))).toList ++ r))
      (typeTokens v.type ++ (defaultTokens v.default? ++ rs)) := by
    rw [VariableDefinition.declared] at clear
    cases hd : v.default? with
    | none => exact type r rs stop hr
    | some l =>
      rw [hd] at clear
      have value := reads_literal (h.default l hd) room clear r rs stop hr
      simp only [Option.map_some, printDefault, String.toList_append, String.reduceToList,
        List.cons_append, List.nil_append]
      exact type _ _ (.cons rfl _) (.blank (by decide) (.sign (p := .equals) rfl rfl
        (.blank (by decide) value)))
  rw [printDeclaration, VariableDefinition.declared, VariableDefinition.tokens]
  simp only [String.toList_append, String.reduceToList, List.append_assoc, List.cons_append,
    List.nil_append]
  exact .sign (p := .dollar) rfl rfl (.name h.name (.cons rfl _)
    (.sign (p := .colon) rfl rfl (.blank (by decide) rest)))

theorem reads_declarations {depth : Nat} (room : depth + 1 + (depthLimit - 1) ≤ depthLimit)
    {vs : List VariableDefinition} (h : ∀ v ∈ vs, v.Proper)
    (clear : (vs.map (·.declared)).all (fun v => v.2.2.all (·.isClear))) :
    Reads depth (if (vs.map (·.declared)).isEmpty then ""
      else "(" ++ Text.joinWith ", " ((vs.map (·.declared)).map printDeclaration) ++ ")")
      (declarationTokens vs) := by
  intro r rs stop hr
  cases vs with
  | nil => exact hr
  | cons v vs =>
    have inner : Reads (depth + 1)
        (Text.joinWith ", " ((v :: vs).map fun w => printDeclaration w.declared))
        ((v :: vs).flatMap VariableDefinition.tokens) := reads_joined fun w hw =>
      reads_declaration room (h w hw) (List.all_eq_true.mp clear _ (List.mem_map_of_mem hw))
    rw [declarationTokens, if_neg (by simp), if_neg (by simp), String.toList_append,
      String.toList_append, List.append_assoc, List.append_assoc, List.cons_append,
      List.append_assoc, List.map_map]
    exact .opens (p := .openParen) rfl rfl (by omega)
      (inner _ _ (.cons rfl _) (.closes (p := .closeParen) rfl rfl hr))

theorem yields_definitionBody {schema : Schema} (named : NamesTypes schema) {scope : String}
    (hscope : IsName scope) {ds : List Directive} (hd : ∀ d ∈ ds, d.Proper depthLimit)
    {xs : List Selection} (h : ProperBody xs)
    (clear : (ds.map Directive.node).all (·.isClear))
    (clears : SelectionNode.allClear (Selection.nodes schema (some scope) xs))
    (resolves : SelectionNode.allResolve schema (Selection.nodes schema (some scope) xs)) :
    Yields 0 ((printDirectives (ds.map Directive.node)).toList ++ (' ' :: '\x7b' :: '\n' ::
        ((SelectionNode.printAll "  " (Selection.nodes schema (some scope) xs)).toList ++
          ['\x7d'])))
      (ds.flatMap Directive.tokens ++
        (bodyTokens (Selection.allSettled schema (some scope) xs) ++ [.endOfText])) := by
  rw [allClear_nodes] at clears
  rw [allResolve_nodes] at resolves
  have limit : 0 < depthLimit := by decide
  have body := yields_body (fun x hx => printed_selection named (h.2 x hx) hscope
    (by omega) (clears x hx) (resolves x hx)) limit "" "  " (by simp) (by simp) (.nil 0)
  exact reads_directives hd (by omega) clear _ _ (.cons rfl _) (.blank (by decide) body)

theorem ends_append {a b : String} {r : List Char} (h : Ends (a.toList ++ (b.toList ++ r))) :
    Ends ((a ++ b).toList ++ r) := by
  rw [String.toList_append, List.append_assoc]
  exact h

theorem ends_ite {b : Bool} {text : String} {r : List Char} (stop : Ends r)
    (h : Ends (text.toList ++ r)) : Ends ((if b then "" else text).toList ++ r) := by
  cases b with
  | true => exact stop
  | false => exact h

theorem isName_text {kind : DocumentKind} (h : kind.isOperation) : IsName kind.text := by
  cases kind with
  | fragment => cases h
  | query | mutation | subscription => exact .of_chars rfl rfl rfl

theorem reads_operationName {depth : Nat} {name? : Option String}
    (h : ∀ n, name? = some n → IsName n) :
    Reads depth (if (name?.getD "").isEmpty then "" else " " ++ name?.getD "")
      (name?.toList.map .name) := by
  intro r rs stop hr
  cases name? with
  | none => exact hr
  | some name =>
    have full : name.isEmpty = false := by
      obtain ⟨c, cs, hcs, _⟩ := h name rfl
      rw [Bool.eq_false_iff]
      intro empty
      rw [String.isEmpty_iff.mp empty] at hcs
      cases hcs
    simp only [Option.getD_some, full, Bool.false_eq_true, if_false, String.toList_append,
      String.reduceToList, List.cons_append, List.nil_append]
    exact .blank (by decide) (.name (h name rfl) stop hr)

theorem yields_definition {schema : Schema} (named : NamesTypes schema) {d : Definition}
    (h : d.Proper) {scope : String} (hd : d.scope? schema = some scope) (hscope : IsName scope)
    {source : Int} (clear : (d.outline schema source).isClear)
    (resolves : (d.outline schema source).resolves schema) :
    Yields 0 (d.outline schema source).print.toList
      ((d.settled schema).tokens ++ [.endOfText]) := by
  cases d with
  | operation o =>
    have hd : schema.rootType? o.kind = some scope := hd
    simp only [Outline.isClear, Definition.outline, hd, Bool.and_eq_true] at clear
    simp only [Outline.resolves, Definition.outline, hd] at resolves
    have body := yields_definitionBody named hscope h.directives h.body clear.1.2 clear.2 resolves
    rw [Outline.print, Outline.head_of_isOperation h.kind]
    simp only [Definition.outline, hd, Definition.settled, Definition.tokens, Operation.tokens,
      String.toList_append, String.reduceToList, List.append_assoc, List.cons_append,
      List.nil_append]
    have stop (cs : List Char) :
        Ends ((printDirectives (o.directives.map Directive.node)).toList ++ ' ' :: cs) :=
      ends_directives _ (.cons rfl cs)
    have room : 0 + 1 + (depthLimit - 1) ≤ depthLimit := by decide
    have declared := reads_declarations room h.declarations clear.1.1 _ _ (stop _) body
    refine .name (isName_text h.kind) ?_ (reads_operationName h.name _ _ ?_ declared)
    · refine ends_ite ?_ (ends_append (.cons rfl _))
      exact ends_ite (stop _) (ends_append (ends_append (.cons rfl _)))
    · exact ends_ite (stop _) (ends_append (ends_append (.cons rfl _)))
  | fragment f =>
    cases hd
    simp only [Outline.isClear, Definition.outline, Bool.and_eq_true] at clear
    have body := yields_definitionBody named hscope h.directives h.body clear.1.2 clear.2 resolves
    simp only [Outline.print, Outline.head, Definition.outline, Definition.settled,
      Definition.tokens, Fragment.tokens, Option.getD_some, String.toList_append,
      String.reduceToList, List.append_assoc, List.cons_append, List.nil_append]
    have stop (cs : List Char) :
        Ends ((printDirectives (f.directives.map Directive.node)).toList ++ ' ' :: cs) :=
      ends_directives _ (.cons rfl cs)
    refine reads_name "fragment" (.of_chars rfl rfl rfl) _ _ (.cons rfl _) ?_
    refine .blank (by decide) (.name h.name (.cons rfl _) (.blank (by decide) ?_))
    refine reads_name "on" (.of_chars rfl rfl rfl) _ _ (.cons rfl _) ?_
    exact .blank (by decide) (.name h.condition (stop _) body)

/-- The text of a definition parses as the settled definition. -/
theorem parseDocument_print {schema : Schema} (named : NamesTypes schema) {d : Definition}
    (h : d.Proper) {scope : String} (hd : d.scope? schema = some scope) (hscope : IsName scope)
    {source : Int} (clear : (d.outline schema source).isClear)
    (resolves : (d.outline schema source).resolves schema) :
    ∃ d', parseDocument (d.outline schema source).print = .ok [d'] ∧
      d'.unplaced = (d.settled schema).unplaced := by
  have yields := yields_definition named h hd hscope clear resolves
  exact parseDocument_of_tokens (h.settled named hd hscope resolves) (yields {} rfl rfl)

/-! ## Outlines without positions -/

section

variable (schema : Schema) (source : Int)

theorem declared_unplaced (f : Fragment) : f.unplaced.declared = f.declared := by
  simp only [Fragment.declared, Fragment.unplaced, List.filter_map, List.flatMap_map]
  rfl

theorem outline_unplaced (d : Definition) : d.unplaced.outline schema source =
    { d.outline schema source with
      row := { (d.outline schema source).row with position := ⟨0, 0⟩ } } := by
  cases d with
  | operation o =>
    simp only [Definition.unplaced, Definition.outline, Operation.unplaced, List.map_map,
      ← Selection.allUnplaced_eq, nodes_allUnplaced]
    rfl
  | fragment f =>
    simp only [Definition.unplaced, Definition.outline, declared_unplaced]
    simp only [Fragment.unplaced, List.map_map, ← Selection.allUnplaced_eq, nodes_allUnplaced]
    rfl

end

theorem restates_of_unplaced {schema : Schema} {d d' : Definition}
    (h : d'.unplaced = (d.settled schema).unplaced) (source source' : Int) :
    (d.outline schema source).Restates (d'.outline schema source') := by
  have settled :
      (d.outline schema source).Restates ((d.settled schema).outline schema source') := by
    cases d with
    | operation o => exact ⟨rfl, rfl, rfl, rfl, rfl, nodes_allSettled ..⟩
    | fragment f => exact ⟨rfl, rfl, rfl, rfl, rfl, nodes_allSettled ..⟩
  have same := congrArg (Definition.outline schema source') h
  rw [outline_unplaced, outline_unplaced] at same
  exact ⟨(congrArg (·.row.kind) same).trans settled.kind,
    (congrArg (·.row.name) same).trans settled.name,
    (congrArg (·.row.condition?) same).trans settled.condition,
    (congrArg (·.declarations) same).trans settled.declarations,
    (congrArg (·.directives) same).trans settled.directives,
    (congrArg (·.selections) same).trans settled.selections⟩

/-! ## Reports -/

/-- A default has the shape that its type asks for. -/
def DefaultFits (type : TypeRef) (default? : Option Value) : Prop :=
  ∀ value, default? = some value → value.check type.modifiers = .ok ()

/-- There is a type to select from, the arguments of a fragment have types, and all defaults fit. -/
def Definition.Fits (schema : Schema) : Definition → Prop
  | .operation o => schema.rootType? o.kind ≠ none ∧
      ∀ v ∈ o.declarations, DefaultFits (.ofExpr v.type) (v.default?.map (·.toValue))
  | .fragment f => ∀ d ∈ f.directives, d.name = Framework.argumentsTag → ∀ a ∈ d.arguments,
      ∃ type, Store.declaredType? a.2.toValue = some type ∧
        DefaultFits type (a.2.toValue.field? "default")

theorem fits_unplaced {schema : Schema} (d : Definition) :
    d.unplaced.Fits schema ↔ d.Fits schema := by
  cases d with
  | operation o =>
    simp only [Definition.unplaced, Definition.Fits, Operation.unplaced, List.forall_mem_map]
    rfl
  | fragment f =>
    simp only [Definition.unplaced, Definition.Fits, Fragment.unplaced, List.forall_mem_map]
    rfl

theorem fits_settled {schema : Schema} (d : Definition) :
    (d.settled schema).Fits schema ↔ d.Fits schema := by
  cases d <;> rfl

end Grammar

namespace Store

variable {s : Store} {source : Source} {document : Int}

theorem declare_eq_nil_iff {p : Position} {name label : String} {type : TypeRef}
    {default? : Option Value} :
    (s.declare source document p name label type default?).2 = [] ↔ DefaultFits type default? := by
  cases default? with
  | none => simp [declare, DefaultFits]
  | some value =>
    simp only [declare]
    split
    · next ok => exact ⟨fun _ _ hv => Option.some.inj hv ▸ ok, fun _ => rfl⟩
    · next misfit failed =>
      refine ⟨fun reported => absurd reported (List.cons_ne_nil _ _), fun fits => ?_⟩
      rw [fits value rfl] at failed
      cases failed

theorem loadEach_eq_nil_iff {α : Type} {step : Store → α → Store × Diagnostics} {P : α → Prop}
    {xs : List α} (h : ∀ s, ∀ x ∈ xs, (step s x).2 = [] ↔ P x) :
    (loadEach step s xs).2 = [] ↔ ∀ x ∈ xs, P x := by
  induction xs generalizing s with
  | nil => exact ⟨fun _ => List.forall_mem_nil P, fun _ => rfl⟩
  | cons x xs ih =>
    rw [loadEach, List.append_eq_nil_iff, List.forall_mem_cons, h s x List.mem_cons_self,
      ih fun s y hy => h s y (List.mem_cons_of_mem x hy)]

theorem loadDefinition_eq_nil_iff {sourceId : Int} {d : Definition} :
    (s.loadDefinition source sourceId d).2 = [] ↔ d.Fits s.schema := by
  cases d with
  | operation o =>
    have root : (if (s.schema.rootType? o.kind).isNone then
        [Diagnostic.validation ("The schema has no " ++ o.kind.text ++ " type")
          (source.location o.position)] else []) = [] ↔ s.schema.rootType? o.kind ≠ none := by
      cases s.schema.rootType? o.kind <;> simp
    have declared : ∀ (t : Store), ∀ v ∈ o.declarations,
        (loadVariable source s.documents.nextId t v).2 = [] ↔
          DefaultFits (.ofExpr v.type) (v.default?.map (·.toValue)) :=
      fun _ _ _ => declare_eq_nil_iff
    rw [loadDefinition, loadOperation, List.append_eq_nil_iff, root]
    exact and_congr_right fun _ => loadEach_eq_nil_iff declared
  | fragment f =>
    have argument : ∀ (t : Store) (p : Position) (a : String × Literal),
        (loadFragmentArgument source s.documents.nextId p t a).2 = [] ↔
          ∃ type, declaredType? a.2.toValue = some type ∧
            DefaultFits type (a.2.toValue.field? "default") := by
      intro t p a
      rw [loadFragmentArgument]
      cases declaredType? a.2.toValue with
      | none => simp
      | some type => simp [declare_eq_nil_iff]
    have arguments : ∀ (t : Store) (d : Directive),
        (loadEach (loadFragmentArgument source s.documents.nextId d.position) t
          d.arguments).2 = [] ↔
          ∀ a ∈ d.arguments, ∃ type, declaredType? a.2.toValue = some type ∧
            DefaultFits type (a.2.toValue.field? "default") :=
      fun t d => loadEach_eq_nil_iff fun t a _ => argument t d.position a
    rw [loadDefinition, loadFragment]
    refine (loadEach_eq_nil_iff fun t d _ => arguments t d).trans ?_
    simp only [List.mem_filter, beq_iff_eq, and_imp]
    rfl

theorem exists_clean_step {α : Type} {step : Store → α → Store × Diagnostics} {P : Store → Prop}
    {xs : List α} (keeps : ∀ t, ∀ x ∈ xs, P t → P (step t x).1) (hs : P s)
    (clean : (loadEach step s xs).2 = []) {x : α} (hx : x ∈ xs) :
    ∃ t, P t ∧ (step t x).2 = [] := by
  induction xs generalizing s with
  | nil => cases hx
  | cons y ys ih =>
    rw [loadEach, List.append_eq_nil_iff] at clean
    rcases List.mem_cons.mp hx with rfl | hx
    · exact ⟨s, hs, clean.1⟩
    · exact ih (fun t z hz => keeps t z (List.mem_cons_of_mem y hz))
        (keeps s y List.mem_cons_self hs) clean.2 hx

theorem definitions_of_plain {source : Source} (plain : source.inline = false)
    {ds : List Definition} (h : parseDocument source.content = .ok ds) :
    source.definitions = ds := by
  rw [Source.definitions, h]
  dsimp only
  rw [plain]
  rfl

theorem fits_of_loadSources (hs : s.Ready NoBorrowers) (clean : s.loadSources.2 = [])
    {e : Int × Source} (he : e ∈ s.sources.entries) (plain : e.2.inline = false)
    {d : Definition} (hd : d ∈ e.2.definitions) : d.Proper ∧ d.Fits s.schema := by
  have here : ∀ e ∈ s.sources.entries, s.sources.contains e.1 := fun e he =>
    contains_of_get? (get?_of_mem he)
  obtain ⟨t, ht, clean⟩ := exists_clean_step (P := Loading s) (fun t e he ht =>
    ht.trans (loadSource_ready ht.ready (ht.sources ▸ here e he))) (.refl hs) clean he
  cases parsed : parseDocument e.2.content with
  | error p =>
    rw [Source.definitions, parsed] at hd
    cases hd
  | ok ds =>
    rw [definitions_of_plain plain parsed] at hd
    rw [loadSource, parsed] at clean
    simp only [plain, Bool.false_eq_true, if_false] at clean
    obtain ⟨u, hu, clean⟩ := exists_clean_step (P := Loading s) (fun u d hd hu =>
      hu.trans (loadDefinition_ready hu.ready (hu.sources ▸ here e he)
        (wellFormed_of_parseDocument parsed d hd))) ht clean hd
    rw [loadDefinition_eq_nil_iff, hu.schema] at clean
    exact ⟨proper_of_parseDocument parsed d hd, clean⟩

end Store

namespace Schema

/-! ## Names of types -/

theorem isName_of_mem_definedTypes {ds : List SchemaDefinition} (proper : ∀ x ∈ ds, x.Proper)
    {name : String} (h : name ∈ definedTypes ds) : IsName name := by
  obtain ⟨x, hx, hname⟩ := List.mem_filterMap.mp h
  cases x with
  | type t =>
    cases hname
    exact (proper _ hx t rfl).name
  | roots | extension | directive => cases hname

theorem isName_of_mem_builtInScalars {name : String} (h : name ∈ Framework.builtInScalars) :
    IsName name := by
  simp only [Framework.builtInScalars, List.mem_cons, List.not_mem_nil, or_false] at h
  rcases h with rfl | rfl | rfl | rfl | rfl <;> exact .of_chars rfl rfl rfl

theorem isName_of_contains_addAll {ds : List SchemaDefinition} (proper : ∀ x ∈ ds, x.Proper)
    {name : String} (h : (addAll ds {}).types.contains name) : IsName name := by
  rcases (contains_types_addAll ds {}).mp h with h | h | h | h
  · cases h
  · exact isName_of_mem_builtInScalars h
  · exact isName_of_mem_definedTypes proper h
  · exact isName_of_mem_definedTypes proper_internalDefinitions h

end Schema

namespace Project

open Store

variable {p : Project} {s : Store}

/-- The project with one text as its only source. -/
def reading (p : Project) (file text : String) : Project :=
  { p with sources := [{ filepath := file, content := text }] }

theorem prepare_eq_ok (h : p.prepare = .ok s) :
    ∃ ds t, parseSchema p.schema = .ok ds ∧
      (Store.empty.configure p.config).loadSchema p.schema = (t, .ok ()) ∧
      t = { Store.empty.configure p.config with schema := Schema.addAll ds {} } ∧ t.Closed ∧
      s = (t.addSources p.sources).1 := by
  obtain ⟨t, hl, rfl⟩ := loadSchema_of_prepare h
  obtain ⟨hs, closed⟩ := commit_eq_ok hl
  split at hs
  · cases hs
  · next ds parsed =>
    cases hs
    exact ⟨ds, _, parsed, hl, rfl, closed, rfl⟩

theorem schema_addSources (sources : List Source) (t : Store) :
    (t.addSources sources).1.schema = t.schema := by
  rw [addSources]
  exact List.foldlRecOn sources _ (motive := fun r : Store × List Int => r.1.schema = t.schema) rfl
    fun r hr source _ => hr

theorem isName_of_prepare (h : p.prepare = .ok s) {name : String}
    (hname : s.schema.types.contains name) : IsName name := by
  obtain ⟨ds, t, parsed, _, rfl, _, rfl⟩ := prepare_eq_ok h
  rw [schema_addSources] at hname
  exact Schema.isName_of_contains_addAll (proper_of_parseSchema parsed) hname

theorem namesTypes_of_prepare (h : p.prepare = .ok s) : NamesTypes s.schema := by
  intro id type htype
  obtain ⟨row, hrow, rfl⟩ := Option.map_eq_some_iff.mp htype
  have closed := (Schema.closed_iff _).mp (prepare_ready h).1.closed.schema
  exact isName_of_prepare h (closed.1 _ (Keyed.mem_rows_of_get? hrow)).2

theorem isName_rootType (h : p.prepare = .ok s) {kind : DocumentKind} {root : String}
    (hroot : s.schema.rootType? kind = some root) : IsName root := by
  obtain ⟨row, hrow, rfl⟩ := Option.map_eq_some_iff.mp hroot
  exact isName_of_prepare h (Schema.contains_of_mem_rows (List.mem_of_find?_eq_some hrow))

theorem exists_scope (h : p.prepare = .ok s) {d : Definition} (proper : d.Proper)
    (fits : d.Fits s.schema) : ∃ scope, d.scope? s.schema = some scope ∧ IsName scope := by
  cases d with
  | operation o =>
    obtain ⟨root, hroot⟩ := Option.ne_none_iff_exists'.mp fits.1
    exact ⟨root, hroot, isName_rootType h hroot⟩
  | fragment f => exact ⟨f.condition, rfl, proper.condition⟩

theorem prepare_of_loadSchema {t : Store}
    (h : (Store.empty.configure p.config).loadSchema p.schema = (t, .ok ())) :
    p.prepare = .ok (t.addSources p.sources).1 := by
  unfold prepare
  simp only [h]

theorem prepare_reading (h : p.prepare = .ok s) (file text : String) :
    ∃ t id, (p.reading file text).prepare = .ok t ∧ t.schema = s.schema ∧
      t.sources.entries = [(id, { filepath := file, content := text })] := by
  obtain ⟨ds, t, _, loaded, _, _, hs⟩ := prepare_eq_ok h
  have again : (p.reading file text).prepare = .ok (t.addSources (p.reading file text).sources).1 :=
    prepare_of_loadSchema loaded
  obtain ⟨⟨id, source⟩, hentries, rfl⟩ := List.map_eq_singleton_iff.mp (prepare_sources again)
  refine ⟨_, id, again, ?_, hentries⟩
  rw [hs, schema_addSources, schema_addSources]

theorem source_of_readDocument {l : Store} {id : Int} {row : DocumentRow} {schema : Schema}
    {source : Int} {d : Definition}
    (h : l.readDocument (id, row) = .ok (d.outline schema source)) : row.source = source := by
  obtain ⟨_, _, h⟩ := bind_eq_ok.mp h
  obtain ⟨_, _, h⟩ := bind_eq_ok.mp h
  obtain ⟨_, _, h⟩ := bind_eq_ok.mp h
  have same : row = (d.outline schema source).row := congrArg Outline.row (Except.ok.inj h)
  rw [same]
  cases d <;> rfl

theorem loadSources_singleton {t : Store} (ht : t.Ready NoBorrowers)
    (new : t.documents.entries = []) {id : Int} {source : Source} (plain : source.inline = false)
    (hsource : t.sources.entries = [(id, source)]) {d : Definition}
    (parsed : parseDocument source.content = .ok [d]) (fits : d.Fits t.schema) :
    ∃ again e, t.loadSources = (again, []) ∧ again.documents.entries = [e] ∧
      again.readDocument e = .ok (d.outline t.schema id) := by
  obtain ⟨rows, hrows, reads⟩ := (loadSources_writes ht.closed).shows
  have reads := reads _ (.refl _ _ _)
  have clean : t.loadSources.2 = [] := by
    have report : (t.loadDefinition source id d).2 = [] := loadDefinition_eq_nil_iff.mpr fits
    simp only [loadSources, hsource, loadEach, loadSource, parsed, plain, Bool.false_eq_true,
      if_false, List.append_nil, report]
  rw [hsource, List.flatMap_singleton, definitions_of_plain plain parsed, List.map_singleton]
    at reads
  generalize t.loadSources = outcome at hrows reads clean ⊢
  obtain ⟨again, found⟩ := outcome
  cases rows with
  | nil => cases reads
  | cons e rows =>
    rw [List.mapM_cons] at reads
    obtain ⟨o, read, reads⟩ := bind_eq_ok.mp reads
    obtain ⟨os, rest, reads⟩ := bind_eq_ok.mp reads
    cases reads
    obtain rfl := eq_nil_of_mapM_eq_nil rest
    exact ⟨again, e, congrArg (again, ·) clean, by rw [hrows, new, List.nil_append], read⟩

/-- A document that was loaded without a report is printed. If there is no float and no U+0008 in
it, and the schema has the fields that it selects, its text parses as one definition. Loaded by
itself, the text gives the document again, without a report. -/
theorem printed_documents_load {l : Store} (prepared : p.prepare = .ok s)
    (loaded : s.loadSources = (l, [])) {id : Int} {row : DocumentRow}
    (present : l.documents.get? id = some row) {source : Source}
    (held : s.sources.get? row.source = some source) (plain : source.inline = false)
    (file : String) :
    ∃ o text, l.readDocument (id, row) = .ok o ∧ l.printDocument id = .ok text ∧
      (o.isClear = true → o.resolves l.schema = true →
        (∃ d, parseDocument text = .ok [d]) ∧
        ∃ t again e o', (p.reading file text).prepare = .ok t ∧ t.loadSources = (again, []) ∧
          again.documents.entries = [e] ∧ again.readDocument e = .ok o' ∧ o.Restates o') := by
  have ready := (prepare_ready prepared).1
  have schema : l.schema = s.schema := by
    have kept := (loadSources_ready ready).schema
    rwa [loaded] at kept
  have nothing : s.documents.entries = [] := by
    rw [prepare_rest prepared]
    rfl
  have present' : s.loadSources.1.documents.get? id = some row := by rwa [loaded]
  obtain ⟨e, he, d, hd, read⟩ := exists_outline ready.closed nothing present'
  rw [loaded] at read
  obtain rfl : e.2 = source := by
    rw [source_of_readDocument read, Table.get?_of_mem he] at held
    exact Option.some.inj held
  refine ⟨_, _, read, printDocument_of_readDocument present read, fun clear resolves => ?_⟩
  obtain ⟨proper, fits⟩ := fits_of_loadSources ready (by rw [loaded]) he plain hd
  obtain ⟨scope, hscope, hname⟩ := exists_scope prepared proper fits
  obtain ⟨d', parsed, same⟩ := parseDocument_print (namesTypes_of_prepare prepared) proper hscope
    hname clear (schema ▸ resolves)
  obtain ⟨t, sid, prepared', hschema, hsources⟩ := prepare_reading prepared file
    (d.outline s.schema e.1).print
  have fits' : d'.Fits t.schema := by
    rw [hschema, ← fits_unplaced, same, fits_unplaced, fits_settled]
    exact fits
  obtain ⟨again, e', loaded', hentries, read'⟩ := loadSources_singleton (prepare_ready prepared').1
    (by rw [prepare_rest prepared']; rfl) rfl hsources parsed fits'
  refine ⟨⟨d', parsed⟩, t, again, e', _, prepared', loaded', hentries, read', ?_⟩
  rw [hschema]
  exact restates_of_unplaced same e.1 sid

/-- A document with all that is printed: defaults, directives, labels, an inherited condition. -/
def postcard : Project where
  schema := "directive @live(every: Int) on QUERY
    type Query \x7b user(id: ID, tags: [String!]): User \x7d
    type User \x7b id: ID name: String friends(where: Where): [User!]! \x7d
    input Where \x7b text: String ids: [Int!] \x7d"
  sources := [{
    filepath := "postcard.graphql"
    content := "query Card($id: ID = \"a\\\"\\n\", $ids: [[Int!]!] = [[1, -2]]) @live(every: 5) \x7b
        user: user(id: $id, tags: [\"x\"]) \x7b
          ... \x7b id \x7d
          mine: name @include(if: true)
          friends(where: \x7b text: null, ids: $ids \x7d) \x7b ...Face \x7d
        \x7d
      \x7d
      fragment Face on User \x7b id \x7d" }]

set_option maxRecDepth 10000 in
def postcardSpelling : Spelling postcard := ⟨_, [_], rfl, rfl⟩

/-- Nothing is reported of the sources, and a document of a text is clear and resolves. -/
def loadsClear (x : Spelling p) (id : Int) : Bool :=
  match x.prepared? with
  | none => false
  | some s =>
    let (l, found) := loadEach loadSpelled s (s.sources.entries.zip x.sources)
    found.isEmpty && (l.documents.get? id).any fun row =>
      (s.sources.get? row.source).any (!·.inline) && match l.readDocument (id, row) with
        | .error _ => false
        | .ok o => o.isClear && o.resolves l.schema

set_option maxRecDepth 100000 in
theorem postcard_loadsClear : loadsClear postcardSpelling 1 := by
  decide +kernel

theorem exists_of_loadsClear {x : Spelling p} {id : Int} (h : loadsClear x id) :
    ∃ s l row source o, p.prepare = .ok s ∧ s.loadSources = (l, []) ∧
      l.documents.get? id = some row ∧ s.sources.get? row.source = some source ∧
      source.inline = false ∧ l.readDocument (id, row) = .ok o ∧ o.isClear ∧
      o.resolves l.schema := by
  unfold loadsClear at h
  split at h
  · cases h
  · next s prepared =>
    rw [← x.loadSources_of_prepared? prepared] at h
    simp only [Bool.and_eq_true, List.isEmpty_iff, Option.any_eq_true] at h
    obtain ⟨clean, row, hrow, ⟨source, hsource, plain⟩, h⟩ := h
    split at h
    · cases h
    · next o read =>
      rw [Bool.and_eq_true] at h
      exact ⟨s, s.loadSources.1, row, source, o, (x.prepare_of_prepared? prepared).1,
        congrArg (s.loadSources.1, ·) clean, hrow, hsource, by simpa using plain, read, h⟩

theorem postcard_loads : ∃ s l row o text t again e o', postcard.prepare = .ok s ∧
    s.loadSources = (l, []) ∧ l.documents.get? 1 = some row ∧ l.readDocument (1, row) = .ok o ∧
    o.isClear = true ∧ o.resolves l.schema = true ∧ l.printDocument 1 = .ok text ∧
    (∃ d, parseDocument text = .ok [d]) ∧
    (postcard.reading "again.graphql" text).prepare = .ok t ∧ t.loadSources = (again, []) ∧
    again.documents.entries = [e] ∧ again.readDocument e = .ok o' ∧ o.Restates o' := by
  obtain ⟨s, l, row, source, o, prepared, loaded, present, held, plain, read, clear, resolves⟩ :=
    exists_of_loadsClear postcard_loadsClear
  obtain ⟨o', text, read', printed, reload⟩ :=
    printed_documents_load prepared loaded present held plain "again.graphql"
  obtain rfl := Except.ok.inj (read.symm.trans read')
  obtain ⟨parsed, t, again, e, o', prepared', loaded', entries, shown, restates⟩ :=
    reload clear resolves
  exact ⟨s, l, row, o, text, t, again, e, o', prepared, loaded, present, read, clear, resolves,
    printed, parsed, prepared', loaded', entries, shown, restates⟩

end Project

end GraphDoc
