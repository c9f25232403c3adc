import GraphDoc.Proofs.Marking
import GraphDoc.Proofs.Untouched

/-!
# Binding page arguments

What pagination does to one field and one document, name by name. `Store.binding` gives what a field
passes under a name together with the declarations of that name in a document, and `Binding.page` is
the rule by which the field comes to pass the variable.
-/

set_option autoImplicit false

namespace GraphDoc

open Table

/-- What a field passes under a name, and how a document declares the variable of that name. -/
structure Binding where
  passed : List Value
  declared : List (TypeRef × Option Value)

namespace Binding

/-- A variable that is declared keeps its type, and its default if it has one. -/
def declare (type : TypeRef) (default? : Option Value) :
    List (TypeRef × Option Value) → List (TypeRef × Option Value)
  | [] => [(type, default?)]
  | (t, d?) :: rest => (t, d?.orElse fun _ => default?) :: rest

/-- The field passes a variable already, or it passes the variable `name` from now on; what it passed
before becomes the default. -/
def page (name : String) (type : TypeRef) (b : Binding) : Binding :=
  match b.passed with
  | [] => ⟨[.leaf .var name], declare type none b.declared⟩
  | v :: vs =>
    if v.kind = .var then b
    else ⟨vs ++ [.leaf .var name], declare type (some v) b.declared⟩

theorem exists_var_page (name : String) (type : TypeRef) (b : Binding) :
    ∃ v ∈ (b.page name type).passed, v.kind = .var := by
  rw [page]
  split
  · exact ⟨_, List.mem_singleton_self _, rfl⟩
  · next v vs hv =>
    split
    · next hk => exact ⟨v, hv ▸ List.mem_cons_self, hk⟩
    · exact ⟨_, List.mem_append_right _ (List.mem_singleton_self _), rfl⟩

end Binding

theorem filter_ne_head {α : Type} {e : Int × α} {l : List (Int × α)}
    (h : (e :: l).Pairwise fun a b => a.1 < b.1) : (e :: l).filter (·.1 ≠ e.1) = l := by
  rw [List.filter_cons_of_neg (by simp), List.filter_eq_self]
  intro a ha
  have := (List.pairwise_cons.mp h).1 a ha
  simp only [decide_eq_true_eq]
  omega

namespace Store

variable {s t : Store} {G : Int → Prop} {l : ListRow} {x d : Int} {n name : String}

def argumentsNamed (s : Store) (x : Int) (n : String) : List (Int × FieldArgument) :=
  (s.argumentRows x).filter (·.2.name == n)

def variablesNamed (s : Store) (d : Int) (n : String) : List (Int × VariableRow) :=
  (s.variablesOf d).filter (·.2.name == n)

def passedAs (s : Store) (x : Int) (n : String) : List Value :=
  (s.argumentsNamed x n).map fun a => s.read a.2.value

/-- The types and defaults with which a document declares a variable. -/
def declared (s : Store) (d : Int) (n : String) : List (TypeRef × Option Value) :=
  (s.variablesNamed d n).map fun v => (v.2.type, v.2.default?.map s.read)

def binding (s : Store) (x d : Int) (n : String) : Binding := ⟨s.passedAs x n, s.declared d n⟩

theorem mem_argumentsNamed {a : Int × FieldArgument} : a ∈ s.argumentsNamed x n ↔
    s.fieldArguments.get? a.1 = some a.2 ∧ a.2.selection = x ∧ a.2.name = n := by
  rw [argumentsNamed, argumentRows, List.mem_filter, List.mem_filter, get?_eq_some_iff]
  simp [and_assoc]

theorem mem_variablesNamed {v : Int × VariableRow} : v ∈ s.variablesNamed d n ↔
    s.declarations.get? v.1 = some v.2 ∧ v.2.document = d ∧ v.2.name = n := by
  rw [variablesNamed, variablesOf, List.mem_filter, List.mem_filter, get?_eq_some_iff]
  simp [and_assoc]

theorem Closed.passedAs_congr (h : s.Closed) (rows : t.argumentRows x = s.argumentRows x)
    (reads : ∀ v, s.values.contains v → t.read v = s.read v) :
    t.passedAs x n = s.passedAs x n := by
  rw [passedAs, passedAs, argumentsNamed, rows]
  apply List.map_congr_left
  intro a ha
  exact reads _ (h.fieldArguments _ (mem_rows_of_get? (mem_argumentsNamed.mp ha).1)).2

theorem Closed.declared_congr (h : s.Closed) (rows : t.variablesOf d = s.variablesOf d)
    (reads : ∀ v, s.values.contains v → t.read v = s.read v) :
    t.declared d n = s.declared d n := by
  rw [declared, declared, variablesNamed, rows]
  apply List.map_congr_left
  intro v hv
  have here := (h.declarations _ (mem_rows_of_get? (mem_variablesNamed.mp hv).1)).2
  cases hd : v.2.default? with
  | none => rfl
  | some w => rw [Option.map_some, Option.map_some, reads w (here w hd)]

/-! ## Arguments -/

theorem passedArgument?_eq (h : s.Closed) :
    s.passedArgument? x n = (s.argumentsNamed x n).head?.bind fun a =>
      (s.values.get? a.2.value).map fun v => (a.1, a.2.value, v) := by
  have here : ∀ a ∈ s.argumentRows x, s.values.contains a.2.value := by
    intro a ha
    have hget := get?_of_mem (List.mem_filter.mp ha).1
    exact (h.fieldArguments _ (mem_rows_of_get? hget)).2
  rw [passedArgument?, argumentsNamed]
  generalize s.argumentRows x = as at here
  induction as with
  | nil => rfl
  | cons a as ih =>
    have ih := ih fun b hb => here b (List.mem_cons_of_mem a hb)
    rw [List.findSome?_cons]
    by_cases hn : a.2.name = n
    · obtain ⟨v, hv⟩ := contains_iff.mp (here a List.mem_cons_self)
      simp [hn, hv]
    · have skipped : (a.2.name == n) = false := beq_false_of_ne hn
      rw [List.filter_cons_of_neg (by simp [skipped]), ← ih]
      simp only [skipped, Bool.false_eq_true, if_false]

theorem argumentsNamed_eraseArgument (id : Int) :
    argumentsNamed { s with fieldArguments := s.fieldArguments.erase id } x n =
      (s.argumentsNamed x n).filter (·.1 ≠ id) := by
  simp only [argumentsNamed, argumentRows, erase, filterRows, List.filter_filter]
  apply List.filter_congr
  intro e _
  cases decide (e.1 ≠ id) <;> simp

theorem argumentsNamed_eraseFirst {a : Int × FieldArgument} {as : List (Int × FieldArgument)}
    (h : s.argumentsNamed x name = a :: as) :
    argumentsNamed { s with fieldArguments := s.fieldArguments.erase a.1 } x n =
      if n = name then as else s.argumentsNamed x n := by
  rw [argumentsNamed_eraseArgument]
  split
  · next hn =>
    rw [hn, h]
    apply filter_ne_head
    rw [← h]
    exact (s.fieldArguments.ordered.filter _).filter _
  · next hn =>
    rw [List.filter_eq_self]
    intro b hb
    simp only [ne_eq, decide_not, Bool.not_eq_true', decide_eq_false_iff_not]
    intro hid
    obtain ⟨hfirst, _, hname⟩ :=
      mem_argumentsNamed.mp (h ▸ List.mem_cons_self : a ∈ s.argumentsNamed x name)
    obtain ⟨hother, _, hname'⟩ := mem_argumentsNamed.mp hb
    rw [hid, hfirst] at hother
    rw [← Option.some.inj hother] at hname'
    exact hn (hname'.symm.trans hname)

theorem passedAs_eraseFirst {a : Int × FieldArgument} {as : List (Int × FieldArgument)}
    (h : s.argumentsNamed x name = a :: as) :
    passedAs { s with fieldArguments := s.fieldArguments.erase a.1 } x n =
      if n = name then as.map fun a => s.read a.2.value else s.passedAs x n := by
  have reads : ∀ v, read { s with fieldArguments := s.fieldArguments.erase a.1 } v = s.read v := by
    intro v
    apply read_of_tables <;> rfl
  rw [passedAs, argumentsNamed_eraseFirst h]
  simp only [reads]
  split <;> rfl

section

variable (p : Position) (type : TypeRef)

theorem read_passVariable (h : s.Ready NoBorrowers) (hl : s.Roots l) (hn : Grammar.IsName name) :
    (∀ v, s.values.contains v → (s.passVariable l p name type).read v = s.read v) ∧
    (s.passVariable l p name type).read s.values.nextId = .leaf .var name := by
  have hw : (Value.leaf .var name).Written := ⟨.var name, .var hn, rfl⟩
  have added := h.addValue hl.document p (some type) hw
  have reads : ∀ v, (s.passVariable l p name type).read v =
      (s.addValue (some l.document) p (some type) (.leaf .var name)).1.read v := by
    intro v
    apply read_of_tables <;> rfl
  constructor
  · intro v hv
    exact (reads v).trans (added.read_old h.toSound hv)
  · exact (reads _).trans added.reads

theorem passedAs_passVariable (h : s.Ready NoBorrowers) (hl : s.Roots l) (hn : Grammar.IsName name) :
    (s.passVariable l p name type).passedAs l.listField n =
      s.passedAs l.listField n ++ if n = name then [.leaf .var name] else [] := by
  obtain ⟨old, new⟩ := read_passVariable p type h hl hn
  let row : FieldArgument := ⟨l.listField, name, s.values.nextId,
    ((s.selections.get? l.listField).bind (·.type?)).map (Schema.idOf · name), p⟩
  have all : (s.passVariable l p name type).argumentRows l.listField =
      s.argumentRows l.listField ++ [(s.fieldArguments.nextId, row)] := by
    refine (argumentRows_addFieldArgument ..).trans ?_
    rw [if_pos rfl]
    rfl
  have rows : (s.passVariable l p name type).argumentsNamed l.listField n =
      s.argumentsNamed l.listField n ++
        if n = name then [(s.fieldArguments.nextId, row)] else [] := by
    rw [argumentsNamed, all, List.filter_append, argumentsNamed]
    by_cases he : n = name
    · simp [he, row]
    · simp [he, Ne.symm he, row]
  have before : (s.argumentsNamed l.listField n).map
      (fun a => (s.passVariable l p name type).read a.2.value) = s.passedAs l.listField n := by
    apply List.map_congr_left
    intro a ha
    exact old _ (h.closed.fieldArguments _ (mem_rows_of_get? (mem_argumentsNamed.mp ha).1)).2
  rw [passedAs, rows, List.map_append, before]
  split
  · rw [List.map_singleton, new]
  · rfl

end

/-! ## Declarations -/

theorem variablesNamed_addVariable (row : VariableRow) (hd : row.document = d) :
    (s.addVariable row).1.variablesNamed d n =
      s.variablesNamed d n ++ if n = row.name then [(s.declarations.nextId, row)] else [] := by
  simp only [variablesNamed, variablesOf, addVariable, entries_push, List.filter_append]
  by_cases he : n = row.name
  · simp [he, hd]
  · simp [he, Ne.symm he, hd]

theorem variablesNamed_modifyFirst {v : Int × VariableRow} {vs : List (Int × VariableRow)}
    (h : s.variablesNamed d name = v :: vs) (f : VariableRow → VariableRow)
    (hd : ∀ row, (f row).document = row.document) (hn : ∀ row, (f row).name = row.name) :
    variablesNamed { s with declarations := s.declarations.modify v.1 f } d n =
      if n = name then (v.1, f v.2) :: vs else s.variablesNamed d n := by
  have first := mem_variablesNamed.mp (h ▸ List.mem_cons_self : v ∈ s.variablesNamed d name)
  have changed : variablesNamed { s with declarations := s.declarations.modify v.1 f } d n =
      (s.variablesNamed d n).map fun e => if e.1 = v.1 then (e.1, f e.2) else e := by
    have both := filter_entries_modify s.declarations v.1 f
      (fun row => row.name == n && decide (row.document = d)) fun row => by rw [hd, hn]
    rw [variablesNamed, variablesOf, List.filter_filter, variablesNamed, variablesOf,
      List.filter_filter]
    exact both
  rw [changed]
  split
  · next he =>
    have ordered : (s.variablesNamed d name).Pairwise fun a b => a.1 < b.1 :=
      (s.declarations.ordered.filter _).filter _
    rw [h] at ordered
    rw [he, h, List.map_cons, if_pos rfl]
    congr 1
    refine (List.map_congr_left fun e he => ?_).trans (List.map_id _)
    have := (List.pairwise_cons.mp ordered).1 e he
    exact if_neg (by omega)
  · next he =>
    refine (List.map_congr_left fun e hm => if_neg fun hid => he ?_).trans (List.map_id _)
    obtain ⟨hget, _, hname⟩ := mem_variablesNamed.mp hm
    rw [hid, first.1] at hget
    rw [← Option.some.inj hget] at hname
    exact hname.symm.trans first.2.2

theorem read_declareWithDefault (p : Position) (type : TypeRef) (default? : Option Int) (v : Int) :
    (s.declareWithDefault d p name type default?).read v = s.read v := by
  rw [declareWithDefault]
  split <;> apply read_of_tables <;> rfl

theorem passedAs_declareWithDefault (p : Position) (type : TypeRef) (default? : Option Int) :
    (s.declareWithDefault d p name type default?).passedAs x n = s.passedAs x n := by
  have rows : (s.declareWithDefault d p name type default?).argumentRows x = s.argumentRows x := by
    rw [declareWithDefault]
    split <;> rfl
  rw [passedAs, passedAs, argumentsNamed, rows]
  simp only [read_declareWithDefault]
  rfl

theorem declared_declareWithDefault (p : Position) (type : TypeRef) (default? : Option Int) :
    (s.declareWithDefault d p name type default?).declared d n =
      if n = name then Binding.declare type (default?.map s.read) (s.declared d n)
      else s.declared d n := by
  have find : (s.variablesOf d).find? (·.2.name == name) = (s.variablesNamed d name).head? :=
    (List.head?_filter ..).symm
  have reads : (s.declareWithDefault d p name type default?).read = s.read :=
    funext (read_declareWithDefault p type default?)
  rw [declared, reads]
  rw [declareWithDefault, find]
  cases hv : s.variablesNamed d name with
  | nil =>
    simp only [List.head?_nil]
    rw [variablesNamed_addVariable _ rfl, List.map_append]
    split
    · next he =>
      subst he
      rw [declared, hv]
      rfl
    · rw [List.map_nil, List.append_nil]
      rfl
  | cons v vs =>
    simp only [List.head?_cons]
    rw [variablesNamed_modifyFirst hv
      (fun v => { v with default? := v.default?.orElse fun _ => default? }) (fun _ => rfl)
      fun _ => rfl]
    split
    · next he =>
      subst he
      rw [declared, hv, List.map_cons, List.map_cons, Binding.declare]
      cases v.2.default? <;> rfl
    · rfl

/-! ## One argument -/

theorem binding_passAndDeclare (h : s.Ready NoBorrowers) (hl : s.Roots l) (p : Position)
    (hn : Grammar.IsName name) (type : TypeRef) (default? : Option Int)
    (hv : ∀ v, default? = some v → s.values.contains v) :
    ((s.passVariable l p name type).declareWithDefault l.document p name type default?).binding
        l.listField l.document n =
      if n = name then ⟨s.passedAs l.listField n ++ [.leaf .var name],
        Binding.declare type (default?.map s.read) (s.declared l.document n)⟩
      else s.binding l.listField l.document n := by
  obtain ⟨old, _⟩ := read_passVariable p type h hl hn
  have default : default?.map (s.passVariable l p name type).read = default?.map s.read := by
    cases default? with
    | none => rfl
    | some v => rw [Option.map_some, Option.map_some, old v (hv v rfl)]
  have same : (s.passVariable l p name type).declared l.document n = s.declared l.document n :=
    h.closed.declared_congr rfl old
  rw [binding, passedAs_declareWithDefault, passedAs_passVariable p type h hl hn,
    declared_declareWithDefault, default, same]
  split
  · rfl
  · rw [List.append_nil]
    rfl

theorem binding_bindPageArgument (h : s.Ready NoBorrowers) (hl : s.Roots l) (p : Position)
    {a : String × String} (ha : a ∈ l.pageArguments) :
    (bindPageArgument l p s a).binding l.listField l.document n =
      if n = a.1 then (s.binding l.listField l.document n).page a.1 ⟨a.2, ""⟩
      else s.binding l.listField l.document n := by
  obtain ⟨name, typeName⟩ := a
  have hn := isName_of_mem_pageArguments ha
  rw [bindPageArgument]
  simp only [passedArgument?_eq h.closed]
  cases hnamed : s.argumentsNamed l.listField name with
  | nil =>
    -- Nothing is passed, so the variable has no literal to take over.
    have nothing : s.passedAs l.listField name = [] := by rw [passedAs, hnamed, List.map_nil]
    simp only [List.head?_nil, Option.bind_none]
    rw [binding_passAndDeclare h hl p hn _ none fun _ hv => by cases hv]
    split
    · next he =>
      rw [he, binding, Binding.page, nothing]
      rfl
    · rfl
  | cons a as =>
    obtain ⟨hget, hx, hname⟩ :=
      mem_argumentsNamed.mp (hnamed ▸ List.mem_cons_self : a ∈ s.argumentsNamed l.listField name)
    have hc := (h.closed.fieldArguments _ (mem_rows_of_get? hget)).2
    obtain ⟨row, hrow⟩ := contains_iff.mp hc
    have kind : (s.read a.2.value).kind = row.kind := by rw [h.toSound.read_eq hrow]; rfl
    have literal : s.passedAs l.listField name =
        s.read a.2.value :: as.map fun a => s.read a.2.value := by
      rw [passedAs, hnamed, List.map_cons]
    simp only [List.head?_cons, Option.bind_some, hrow, Option.map_some]
    split
    · next hvar =>
      split
      · next he =>
        rw [he, binding, Binding.page, literal]
        simp only [kind, hvar, if_true]
      · rfl
    · next hlit =>
      -- The literal is taken off first; its value stays and becomes the default.
      have erased : Paging s { s with fieldArguments := s.fieldArguments.erase a.1 } :=
        ⟨h.eraseArgument a.1, rfl⟩
      have reads : ∀ v, read { s with fieldArguments := s.fieldArguments.erase a.1 } v =
          s.read v := by
        intro v
        apply read_of_tables <;> rfl
      have same : declared { s with fieldArguments := s.fieldArguments.erase a.1 } l.document n =
          s.declared l.document n := h.closed.declared_congr rfl fun v _ => reads v
      rw [binding_passAndDeclare erased.ready (erased.roots hl) p hn _ (some a.2.value)
        fun v hv => Option.some.inj hv ▸ hc, binding, passedAs_eraseFirst hnamed, same,
        Option.map_some, reads]
      split
      · next he =>
        rw [he, binding, Binding.page, literal]
        simp only [kind, hlit, if_false]
      · rfl

/-! ## One list -/

theorem nodup_pageArguments (l : ListRow) : (l.pageArguments.map (·.1)).Nodup := by
  rw [ListRow.pageArguments]
  cases l.connection <;> cases l.supportsForward <;> cases l.supportsBackward <;> simp

theorem binding_foldl_bindPageArgument (p : Position) (as : List (String × String))
    (has : ∀ a ∈ as, a ∈ l.pageArguments) (nodup : (as.map (·.1)).Nodup) {s : Store}
    (h : s.Ready NoBorrowers) (hl : s.Roots l) :
    (∀ a ∈ as, (as.foldl (bindPageArgument l p) s).binding l.listField l.document a.1 =
      (s.binding l.listField l.document a.1).page a.1 ⟨a.2, ""⟩) ∧
    ∀ n ∉ as.map (·.1), (as.foldl (bindPageArgument l p) s).binding l.listField l.document n =
      s.binding l.listField l.document n := by
  induction as generalizing s with
  | nil => exact ⟨nofun, fun _ _ => rfl⟩
  | cons a as ih =>
    obtain ⟨hfirst, hrest⟩ := List.nodup_cons.mp nodup
    have ha := has a List.mem_cons_self
    have paging := bindPageArgument_paging h hl p ha
    obtain ⟨bound, others⟩ := ih (fun b hb => has b (List.mem_cons_of_mem a hb)) hrest paging.ready
      (paging.roots hl)
    rw [List.foldl_cons]
    constructor
    · intro b hb
      rcases List.mem_cons.mp hb with rfl | hb
      · rw [others b.1 hfirst, binding_bindPageArgument h hl p ha, if_pos rfl]
      · rw [bound b hb, binding_bindPageArgument h hl p ha, if_neg]
        intro he
        exact hfirst (List.mem_map.mpr ⟨b, hb, he⟩)
    · intro n hn
      obtain ⟨hne, hn⟩ := not_or.mp (mt List.mem_cons.mpr hn)
      rw [others n hn, binding_bindPageArgument h hl p ha, if_neg hne]

/-- The directive that makes the runtime drop repeated requests. -/
def dedupeNode : DirectiveNode :=
  ⟨Framework.dedupeTag, [(Framework.matchArgument, .leaf .enum "Variables")]⟩

/-- A document is an operation that is not deduplicated yet. -/
def Repeatable (s : Store) (d : Int) : Prop :=
  (∃ row, s.documents.get? d = some row ∧ row.kind.isOperation = true) ∧
    ∀ node ∈ s.nodes .document d, node.name ≠ Framework.dedupeTag

theorem wantsDedupe_iff : s.wantsDedupe d ↔ s.Repeatable d := by
  have none : (s.directives .document).has d Framework.dedupeTag = false ↔
      ∀ node ∈ s.nodes .document d, node.name ≠ Framework.dedupeTag := by
    rw [DirectiveTables.has, List.any_eq_false, nodes, List.forall_mem_map]
    constructor
    · intro hnone use huse hname
      obtain ⟨hm, howner⟩ := List.mem_filter.mp huse
      have := hnone use.2 (mem_rows_of_get? (get?_of_mem hm))
      simp only [Bool.and_eq_true, beq_iff_eq, not_and] at this
      exact this howner hname
    · intro hnone u hu
      obtain ⟨id, hid⟩ := mem_rows_iff.mp hu
      simp only [Bool.and_eq_true, decide_eq_true_eq, beq_iff_eq, not_and]
      intro howner
      exact hnone (id, u) (List.mem_filter.mpr ⟨mem_of_get? hid, decide_eq_true howner⟩)
  rw [wantsDedupe, Repeatable, ← none]
  cases s.documents.get? d <;> simp

theorem read_addDedupe (h : s.Ready NoBorrowers) (hd : s.documents.contains d)
    (p : Position) :
    (∀ v, s.values.contains v → (s.addDedupe d p).read v = s.read v) ∧
    (s.addDedupe d p).read s.values.nextId = .leaf .enum "Variables" :=
  read_addMarker h .document hd hd written_variables Framework.dedupeTag Framework.matchArgument
    (some ⟨"DedupeMatchMode", ""⟩) p

theorem nodes_addDedupe (h : s.Ready NoBorrowers) (hd : s.documents.contains d)
    (p : Position) : (s.addDedupe d p).nodes .document d = s.nodes .document d ++ [dedupeNode] := by
  refine (nodes_addMarker h .document hd hd written_variables Framework.dedupeTag
    Framework.matchArgument (some ⟨"DedupeMatchMode", ""⟩) p d).trans ?_
  rw [if_pos rfl]
  rfl

theorem Pages.binding {ls : List ListRow} {G' : Int → Prop} (h : Pages ls s t) (hs : s.Sound G)
    (ht : t.Sound G') (hx : ∀ k ∈ ls, k.listField ≠ x) (hd : ∀ k ∈ ls, k.document ≠ d) :
    t.binding x d n = s.binding x d n := by
  have reads : ∀ v, s.values.contains v → t.read v = s.read v := fun v hv =>
    h.read hs ht hv
  rw [Store.binding, hs.closed.passedAs_congr (h.arguments x hx) reads,
    hs.closed.declared_congr (h.declarations d hd) reads]
  rfl

/-- What pagination did to a list: each page argument of its field is read from a variable of its
document, and the document is deduplicated if it can be repeated and that is wanted. -/
structure Paginated (config : Config) (l : ListRow) (s t : Store) : Prop where
  bound : ∀ a ∈ l.pageArguments, t.binding l.listField l.document a.1 =
    (s.binding l.listField l.document a.1).page a.1 ⟨a.2, ""⟩
  others : ∀ n ∉ l.pageArguments.map (·.1),
    t.binding l.listField l.document n = s.binding l.listField l.document n
  deduplicated : config.suppressPaginationDeduplication = false → s.Repeatable l.document →
    t.nodes .document l.document = s.nodes .document l.document ++ [dedupeNode]
  kept : ¬ (config.suppressPaginationDeduplication = false ∧ s.Repeatable l.document) →
    t.nodes .document l.document = s.nodes .document l.document

theorem documentDirectives_bindPageArgument (l : ListRow) (p : Position) (s : Store)
    (a : String × String) :
    (bindPageArgument l p s a).documentDirectives = s.documentDirectives := by
  have declare : ∀ (t : Store) (default? : Option Int), (t.declareWithDefault l.document p a.1
      ⟨a.2, ""⟩ default?).documentDirectives = t.documentDirectives := by
    intro t default?
    rw [declareWithDefault]
    split <;> rfl
  rw [bindPageArgument]
  split
  · exact declare _ _
  · split
    · rfl
    · exact declare _ _

theorem paginateList_paginated (config : Config) (h : s.Ready NoBorrowers) (hl : s.Roots l) :
    Paginated config l s (paginateList config s l) := by
  obtain ⟨bound, others⟩ := binding_foldl_bindPageArgument (s.listPosition l) l.pageArguments
    (fun a ha => ha) (nodup_pageArguments l) h hl
  have paging : Paging s (l.pageArguments.foldl (bindPageArgument l (s.listPosition l)) s) :=
    List.foldlRecOn (motive := fun t => Paging s t) _ _ (.refl h)
      fun t ht a ha => ht.trans (bindPageArgument_paging ht.ready (ht.roots hl) _ ha)
  have pages : Pages [l] s (l.pageArguments.foldl (bindPageArgument l (s.listPosition l)) s) :=
    List.foldlRecOn (motive := fun t => Pages [l] s t) _ _ (.refl _ s)
      fun t ht a _ => ht.trans (bindPageArgument_pages List.mem_cons_self _ a)
  have directives : (l.pageArguments.foldl (bindPageArgument l (s.listPosition l))
      s).documentDirectives = s.documentDirectives :=
    List.foldlRecOn (motive := fun t : Store => t.documentDirectives = s.documentDirectives) _ _ rfl
      fun t ht a _ => (documentDirectives_bindPageArgument ..).trans ht
  rw [paginateList]
  -- From here on only the directive of the document matters, and it binds no name.
  generalize l.pageArguments.foldl (bindPageArgument l (s.listPosition l)) s = u at *
  have nodes : u.nodes .document l.document = s.nodes .document l.document :=
    h.closed.nodes_of_reads (show u.directives .document = s.directives .document from directives)
      (fun v hv => pages.read h.toSound paging.ready.toSound hv) _
  have documents : u.documents = s.documents := by rw [paging.rest]
  have repeatable : u.Repeatable l.document ↔ s.Repeatable l.document := by
    rw [Repeatable, Repeatable, documents, nodes]
  have hd := (paging.roots hl).document
  obtain ⟨old, _⟩ := read_addDedupe paging.ready hd (s.listPosition l)
  have same : ∀ n, (u.addDedupe l.document (s.listPosition l)).binding l.listField l.document n =
      u.binding l.listField l.document n := by
    intro n
    rw [binding, paging.ready.closed.passedAs_congr (t := u.addDedupe ..) rfl old,
      paging.ready.closed.declared_congr (t := u.addDedupe ..) rfl old]
    rfl
  split
  · next hwants =>
    simp only [Bool.and_eq_true, Bool.not_eq_true', wantsDedupe_iff, repeatable] at hwants
    constructor
    · intro a ha
      rw [same, bound a ha]
    · intro n hn
      rw [same, others n hn]
    · intro _ _
      rw [nodes_addDedupe paging.ready hd, nodes]
    · intro hnot
      exact absurd hwants hnot
  · next hwants =>
    simp only [Bool.and_eq_true, Bool.not_eq_true', wantsDedupe_iff, repeatable] at hwants
    constructor
    · exact bound
    · exact others
    · intro hconfig hrep
      exact absurd ⟨hconfig, hrep⟩ hwants
    · intro _
      exact nodes

/-! ## All lists -/

theorem foldl_paginateList (config : Config) (ls : List ListRow) (h : s.Ready NoBorrowers)
    (hls : ∀ k ∈ ls, s.Roots k) :
    Paging s (ls.foldl (paginateList config) s) ∧ Pages ls s (ls.foldl (paginateList config) s) := by
  constructor
  · exact List.foldlRecOn (motive := fun t => Paging s t) _ _ (.refl h) fun _ ht k hk =>
      ht.trans (paginateList_paging config ht.ready (ht.roots (hls k hk)))
  · exact List.foldlRecOn (motive := fun t => Pages ls s t) _ _ (.refl _ s) fun _ ht k hk =>
      ht.trans (paginateList_pages config hk)

/-- A list that shares neither its field nor its document with another paginated list is paginated
as if it were the only one. -/
theorem preparePagination_paginated (config : Config) (h : s.Ready NoBorrowers)
    {before after : List ListRow}
    (split : s.lists.rows.filter (·.paginate ≠ .unpaged) = before ++ l :: after)
    (apart : ∀ k ∈ before ++ after, k.listField ≠ l.listField ∧ k.document ≠ l.document) :
    Paginated config l s (s.preparePagination config).1 := by
  have roots : ∀ k ∈ before ++ l :: after, s.Roots k := by
    intro k hk
    rw [← split] at hk
    exact h.roots (List.mem_filter.mp hk).1
  have hl : l ∈ before ++ l :: after := List.mem_append_right _ List.mem_cons_self
  rw [preparePagination, split, List.foldl_append, List.foldl_cons]
  obtain ⟨paging₁, pages₁⟩ := foldl_paginateList config before h fun k hk =>
    roots k (List.mem_append_left _ hk)
  generalize before.foldl (paginateList config) s = s₁ at *
  have paginated := paginateList_paginated config paging₁.ready (paging₁.roots (roots l hl))
  have paging₂ := paginateList_paging config paging₁.ready (paging₁.roots (roots l hl))
  generalize paginateList config s₁ l = s₂ at *
  obtain ⟨paging₃, pages₃⟩ := foldl_paginateList config after paging₂.ready fun k hk =>
    (paging₁.trans paging₂).roots (roots k (List.mem_append_right _ (List.mem_cons_of_mem l hk)))
  generalize after.foldl (paginateList config) s₂ = s₃ at *
  -- The lists on both sides have other fields and other documents, so they leave this one alone.
  have first : ∀ n, s₁.binding l.listField l.document n = s.binding l.listField l.document n :=
    fun n => pages₁.binding h.toSound paging₁.ready.toSound
      (fun k hk => (apart k (List.mem_append_left _ hk)).1)
      fun k hk => (apart k (List.mem_append_left _ hk)).2
  have last : ∀ n, s₃.binding l.listField l.document n = s₂.binding l.listField l.document n :=
    fun n => pages₃.binding paging₂.ready.toSound paging₃.ready.toSound
      (fun k hk => (apart k (List.mem_append_right _ hk)).1)
      fun k hk => (apart k (List.mem_append_right _ hk)).2
  have firstNodes : s₁.nodes .document l.document = s.nodes .document l.document :=
    pages₁.documentNodes h.toSound paging₁.ready.toSound
      fun k hk => (apart k (List.mem_append_left _ hk)).2
  have lastNodes : s₃.nodes .document l.document = s₂.nodes .document l.document :=
    pages₃.documentNodes paging₂.ready.toSound paging₃.ready.toSound
      fun k hk => (apart k (List.mem_append_right _ hk)).2
  have repeatable : s₁.Repeatable l.document ↔ s.Repeatable l.document := by
    rw [Repeatable, Repeatable, firstNodes, show s₁.documents = s.documents by rw [paging₁.rest]]
  constructor
  · intro a ha
    rw [last, paginated.bound a ha, first]
  · intro n hn
    rw [last, paginated.others n hn, first]
  · intro hconfig hrep
    rw [lastNodes, paginated.deduplicated hconfig (repeatable.mpr hrep), firstNodes]
  · intro hnot
    rw [lastNodes, paginated.kept (fun hr => hnot ⟨hr.1, repeatable.mp hr.2⟩), firstNodes]

end Store

end GraphDoc
