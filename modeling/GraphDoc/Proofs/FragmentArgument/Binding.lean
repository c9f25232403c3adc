import GraphDoc.FragmentArgument.Inline
import GraphDoc.Proofs.FragmentArgument.Cloned
import GraphDoc.Proofs.FragmentArgument.Substitution
import GraphDoc.Proofs.Grammar.WellFormed
import GraphDoc.Proofs.NameMap

/-!
# Binding arguments

The scope of a clone binds every declared argument to a value row. `Inlining.boundValue` says which
value that is, in terms of the directives on the spread and the declarations of the fragment. All
rows that a scope can bind are rooted: no field argument and no other value contains them, so they
outlast every substitution.
-/

set_option autoImplicit false

namespace GraphDoc

open Table

namespace NameMap

variable {α : Type}

theorem get?_ofPairs (pairs : List (String × α)) (name : String) :
    get? name (ofPairs pairs) = ((pairs.filter (·.1 = name)).getLast?).map (·.2) := by
  refine foldl_snoc_induction (f := fun m (pair : String × α) => put pair.1 pair.2 m) (b := [])
    (P := fun pre m => get? name m = ((pre.filter (·.1 = name)).getLast?).map (·.2)) pairs rfl ?_
  intro pre e post _ m hm
  rw [get?_put, List.filter_append, hm]
  by_cases he : name = e.1
  · subst he
    simp
  · have : ¬ e.1 = name := fun h => he h.symm
    simp [he, this]

theorem mem_of_get? {m : NameMap α} {name : String} {a : α} (h : get? name m = some a) :
    (name, a) ∈ m := by
  induction m with
  | nil => cases h
  | cons pair m ih =>
    obtain ⟨key, b⟩ := pair
    rw [get?] at h
    split at h
    · next he =>
      cases h
      exact he ▸ List.mem_cons_self
    · exact List.mem_cons_of_mem _ (ih h)

end NameMap

/-- An owner that is neither a field argument nor another value. -/
def Owner.IsRoot : Owner → Prop
  | .directive _ _ => True
  | .default _ => True
  | _ => False

namespace Store

variable {s t : Store} {G : Int → Prop} {document v : Int}

/-! ## Rooted values -/

/-- A value that belongs to a directive or is a default, or that nothing refers to. -/
def Rooted (s : Store) (v : Int) : Prop :=
  s.values.contains v = true ∧ ∀ o, s.owns o = some v → o.IsRoot

theorem Sound.rooted (hs : s.Sound G) {o : Owner} (h : s.owns o = some v) (ho : o.IsRoot) :
    s.Rooted v :=
  ⟨hs.closed.contains_of_owns h, fun o' ho' => hs.single o o' v h ho' ▸ ho⟩

theorem Rooted.not_inside (h : s.Rooted v) : ¬ s.Inside document v := by
  intro hin
  rcases hin.owner with ⟨a, ha, rfl⟩ | ⟨_, _, l, hl, rfl⟩
  · exact (h.2 _ (owns_argument (mem_argumentsIn.mp ha).1)).elim
  · exact (h.2 _ (owns_of_mem_linksOf hl)).elim

theorem Rooted.copying (h : s.Rooted v) (hc : Copying s t) : t.Rooted v := by
  refine ⟨hc.values.contains h.1, fun o ho => ?_⟩
  rcases hc.owns ho with ho | hlt
  · exact h.2 o ho
  · have := le_issued_of_contains h.1
    omega

theorem Rooted.substituted {σ : String → Option Value} (h : s.Rooted v)
    (ht : Substituted G s document σ t) : t.Rooted v ∧ t.read v = s.read v := by
  obtain ⟨hc, hread⟩ := ht.kept v h.1 h.not_inside
  exact ⟨⟨hc, fun o ho => h.2 o (ht.owns o v ho (le_issued_of_contains h.1))⟩, hread⟩

end Store

namespace Inlining

variable {s : Store} {G : Int → Prop} {t : Task}

/-! ## Applied arguments -/

/-- The last argument of a name in the `@with` directives on a spread. -/
def lastWith (s : Store) (spread : Int) (name : String) : Option DirectiveArgument :=
  ((s.directives .selection).arguments.rows.filter fun a =>
    isWith s spread a.owner && a.name = name).getLast?

/-- A variable that the scope binds stands for its value. -/
def resolved (s : Store) (scope : Scope) : Value → Value
  | .node kind raw children =>
    if kind = .var then (s.meaning scope raw).getD (.node kind raw children)
    else .node kind raw children

/-- The value of an argument that a fragment declares: the last one that the spread applies, else
the default, else null. -/
def boundValue (s : Store) (scope : Scope) (target spread : Int) (name : String) : Option Value :=
  (((s.variablesOf target).map (·.2)).filter (·.name = name)).getLast?.map fun declared =>
    match lastWith s spread name, declared.default? with
    | some a, _ => resolved s scope (s.read a.value)
    | none, some value => s.read value
    | none, none => .node .null "null" []

/-- A task whose document has no defaults of its own and whose scope binds rooted values. -/
structure Scoped (s : Store) (t : Task) : Prop where
  defaults : ownDefaults s t.document = []
  rooted : ∀ name v, NameMap.get? name t.scope = some v → s.Rooted v ∧ (s.read v).Written

theorem Scoped.resolve (h : Scoped s t) (hs : s.Sound G) {v : Int} (hv : s.Rooted v) :
    ∃ w, Inlining.resolve s t v = some w ∧ s.Rooted w ∧
      s.read w = resolved s t.scope (s.read v) := by
  obtain ⟨row, hrow⟩ := contains_iff.mp hv.1
  rw [Inlining.resolve, hrow, h.defaults, hs.read_eq hrow, resolved]
  by_cases hk : row.kind = .var
  · cases hg : NameMap.get? row.raw t.scope with
    | none =>
      refine ⟨v, by simp [hk, hg, NameMap.get?], hv, ?_⟩
      rw [if_pos hk, Store.meaning, hg, hs.read_eq hrow]
      rfl
    | some w =>
      refine ⟨w, by simp [hk, hg], (h.rooted _ w hg).1, ?_⟩
      rw [if_pos hk, Store.meaning, hg]
      rfl
  · refine ⟨v, by simp [hk], hv, ?_⟩
    rw [if_neg hk, hs.read_eq hrow]

/-- The pairs that the applied arguments are made of. -/
theorem Scoped.applied_pairs (h : Scoped s t) (hs : s.Sound G) (spread : Int) :
    ∃ w : DirectiveArgument → Int,
      (∀ a ∈ (s.directives .selection).arguments.rows, s.Rooted (w a) ∧
        s.read (w a) = resolved s t.scope (s.read a.value)) ∧
      applied s t spread = NameMap.ofPairs
        (((s.directives .selection).arguments.rows.filter fun a => isWith s spread a.owner).map
          fun a => (a.name, w a)) := by
  have found : ∀ a ∈ (s.directives .selection).arguments.rows, ∃ w,
      Inlining.resolve s t a.value = some w ∧ s.Rooted w ∧
        s.read w = resolved s t.scope (s.read a.value) := by
    intro a ha
    obtain ⟨id, hid⟩ := mem_rows_iff.mp ha
    exact h.resolve hs (hs.rooted (Store.owns_directive hid) trivial)
  refine ⟨fun a => (Inlining.resolve s t a.value).getD 0, fun a ha => ?_, ?_⟩
  · obtain ⟨w, hw, hrest⟩ := found a ha
    simp only [hw, Option.getD_some]
    exact hrest
  · rw [applied, ← List.filterMap_eq_map, List.filterMap_filter]
    congr 1
    refine List.filterMap_congr fun a ha => ?_
    obtain ⟨w, hw, _⟩ := found a ha
    simp only [hw, Option.map_some, Option.getD_some, Function.comp_apply]

theorem Scoped.applied_rooted (h : Scoped s t) (hs : s.Sound G) {spread : Int}
    {e : String × Int} (he : e ∈ applied s t spread) : s.Rooted e.2 := by
  obtain ⟨w, hw, happlied⟩ := h.applied_pairs hs spread
  rw [happlied] at he
  obtain ⟨a, ha, rfl⟩ := List.mem_map.mp (NameMap.mem_ofPairs he)
  exact (hw a (List.mem_filter.mp ha).1).1

theorem Scoped.read_applied (h : Scoped s t) (hs : s.Sound G) (spread : Int) (name : String) :
    (NameMap.get? name (applied s t spread)).map s.read =
      (lastWith s spread name).map fun a => resolved s t.scope (s.read a.value) := by
  obtain ⟨w, hw, happlied⟩ := h.applied_pairs hs spread
  have hfilter : (((s.directives .selection).arguments.rows.filter fun a =>
      isWith s spread a.owner).map fun a => (a.name, w a)).filter (·.1 = name) =
      ((s.directives .selection).arguments.rows.filter fun a =>
        isWith s spread a.owner && a.name = name).map fun a => (a.name, w a) := by
    rw [List.filter_map, List.filter_filter]
    congr 1
    refine List.filter_congr fun a _ => ?_
    simp [Bool.and_comm]
  rw [happlied, NameMap.get?_ofPairs, hfilter, List.getLast?_map, Option.map_map, Option.map_map,
    lastWith]
  refine Option.map_congr fun a ha => ?_
  exact (hw a (List.mem_filter.mp (List.mem_of_getLast? ha)).1).2

theorem Scoped.resolved_written (h : Scoped s t) {v : Value} (hv : v.Written) :
    (resolved s t.scope v).Written := by
  obtain ⟨kind, raw, children⟩ := v
  rw [resolved]
  split
  · cases hg : NameMap.get? raw t.scope with
    | none =>
      rw [Store.meaning, hg]
      exact hv
    | some w =>
      rw [Store.meaning, hg]
      exact (h.rooted raw w hg).2
  · exact hv

theorem Scoped.applied_written (h : Scoped s t) (hs : s.Sound G)
    (hw : ∀ o v, s.owns o = some v → o.IsRoot → (s.read v).Written) {spread : Int}
    {e : String × Int} (he : e ∈ applied s t spread) : (s.read e.2).Written := by
  obtain ⟨w, hread, happlied⟩ := h.applied_pairs hs spread
  rw [happlied] at he
  obtain ⟨a, ha, rfl⟩ := List.mem_map.mp (NameMap.mem_ofPairs he)
  have ha := (List.mem_filter.mp ha).1
  obtain ⟨id, hid⟩ := mem_rows_iff.mp ha
  rw [(hread a ha).2]
  exact h.resolved_written (hw _ _ (Store.owns_directive hid) trivial)

theorem texts_eq (hs : s.Sound G) {arguments : NameMap Int}
    (h : ∀ e ∈ arguments, s.values.contains e.2) :
    texts s arguments = .ok (arguments.map fun e => (e.1, (s.read e.2).raw)) := by
  refine mapM_eq_ok fun e he => ?_
  obtain ⟨name, value⟩ := e
  obtain ⟨row, hrow⟩ := contains_iff.mp (h _ he)
  simp only [hrow, hs.read_eq hrow]
  rfl

/-! ## Bound arguments -/

/-- The declared arguments in `pre` are bound, and null was added if one had no value. -/
structure Bound (G : Int → Prop) (s : Store) (null₀? : Option Int) (arguments : NameMap Int)
    (pre : List VariableRow) (s' : Store) (null? : Option Int) (pairs : List (String × Int)) :
    Prop where
  sound : s'.Sound G
  copying : Store.Copying s s'
  same : s' = { s with values := s'.values }
  null : ∀ v, null? = some v → s'.Rooted v ∧ s'.read v = .node .null "null" []
  kept : ∀ v, null₀? = some v → null? = some v
  pairs : pairs = pre.map fun d => (d.name,
    ((NameMap.get? d.name arguments).orElse fun _ => d.default?).getD (null?.getD 0))
  valued : ∀ d ∈ pre, (NameMap.get? d.name arguments).orElse (fun _ => d.default?) = none →
    null?.isSome = true

theorem bound (hs : s.Sound G) {null? : Option Int}
    (hnull : ∀ v, null? = some v → s.Rooted v ∧ s.read v = .node .null "null" [])
    (arguments : NameMap Int) (declared : List VariableRow) :
    Bound G s null? arguments declared (declared.foldl (bind arguments) (s, null?, [])).1
      (declared.foldl (bind arguments) (s, null?, [])).2.1
      (declared.foldl (bind arguments) (s, null?, [])).2.2 := by
  refine foldl_snoc_induction (P := fun pre (r : Store × Option Int × List (String × Int)) =>
    Bound G s null? arguments pre r.1 r.2.1 r.2.2) declared
    ⟨hs, .refl s, rfl, hnull, fun _ h => h, rfl, fun _ h => absurd h List.not_mem_nil⟩ ?_
  rintro pre d post _ ⟨s', n?, pairs⟩ hr
  change Bound G s null? arguments pre s' n? pairs at hr
  cases hvalue : (NameMap.get? d.name arguments).orElse fun _ => d.default? with
  | some value =>
    have step : bind arguments (s', n?, pairs) d = (s', n?, pairs ++ [(d.name, value)]) := by
      simp only [bind, hvalue]
    rw [step]
    refine { hr with pairs := ?_, valued := fun d' hd' hnone => ?_ }
    · rw [List.map_append, ← hr.pairs, List.map_singleton, hvalue]
      rfl
    · rcases List.mem_append.mp hd' with hd' | hd'
      · exact hr.valued d' hd' hnone
      · obtain rfl := List.mem_singleton.mp hd'
        cases hvalue.symm.trans hnone
  | none =>
    cases hn : n? with
    | some value =>
      subst hn
      have step : bind arguments (s', some value, pairs) d =
          (s', some value, pairs ++ [(d.name, value)]) := by
        simp only [bind, hvalue]
      rw [step]
      refine { hr with pairs := ?_, valued := fun _ _ _ => rfl }
      rw [List.map_append, ← hr.pairs, List.map_singleton, hvalue]
      rfl
    | none =>
      subst hn
      -- The first argument without a value brings the null.
      have step : bind arguments (s', none, pairs) d =
          ((s'.addValueRow ⟨.null, "null", none, none, ⟨0, 0⟩⟩).1, some s'.values.nextId,
            pairs ++ [(d.name, s'.values.nextId)]) := by
        simp only [bind, hvalue]
        rfl
      rw [step]
      have sound : (s'.addValueRow ⟨.null, "null", none, none, ⟨0, 0⟩⟩).1.Sound G :=
        hr.sound.addValueRow nofun
      have hrow : (s'.addValueRow ⟨.null, "null", none, none, ⟨0, 0⟩⟩).1.values.get?
          s'.values.nextId = some ⟨.null, "null", none, none, ⟨0, 0⟩⟩ := get?_push_nextId ..
      refine ⟨sound, hr.copying.addValueRow _, ?_, fun v hv => ?_, fun v hv => ?_, ?_,
        fun _ _ _ => rfl⟩
      · simp only [Store.addValueRow]
        conv_lhs => rw [hr.same]
      · cases hv
        refine ⟨⟨contains_of_get? hrow, fun o ho => ?_⟩, ?_⟩
        · exact absurd ho fun ho => hr.sound.closed.unowned_nextId o (by cases o <;> exact ho)
        · have hlinks : (s'.addValueRow ⟨.null, "null", none, none, ⟨0, 0⟩⟩).1.linksOf
              s'.values.nextId = [] := hr.sound.linksOf_eq_nil fun hc => by
            have := le_issued_of_contains hc
            have := s'.values.issued_lt_nextId
            omega
          rw [sound.read_eq hrow, hlinks]
          rfl
      · cases hr.kept v hv
      · simp only
        rw [List.map_append, List.map_singleton, hvalue, hr.pairs]
        congr 1
        refine List.map_congr_left fun d' hd' => ?_
        cases hd : (NameMap.get? d'.name arguments).orElse fun _ => d'.default? with
        | some _ => rfl
        | none => cases hr.valued d' hd' hd

section

variable {s' : Store} {null₀? null? : Option Int} {arguments : NameMap Int}
  {declared : List VariableRow} {pairs : List (String × Int)}

/-- The value of a declared argument has the properties that applied arguments and defaults have. -/
theorem value_induction {P : Int → Prop}
    (harguments : ∀ name v, NameMap.get? name arguments = some v → P v) {d : VariableRow}
    (hdefault : ∀ v, d.default? = some v → P v) {v : Int}
    (h : ((NameMap.get? d.name arguments).orElse fun _ => d.default?) = some v) : P v := by
  cases hg : NameMap.get? d.name arguments with
  | some w =>
    rw [hg] at h
    cases h
    exact harguments _ _ hg
  | none =>
    rw [hg] at h
    exact hdefault v h

variable (h : Bound G s null₀? arguments declared s' null? pairs) (hs : s.Sound G)
  (harguments : ∀ name v, NameMap.get? name arguments = some v → s.Rooted v ∧ (s.read v).Written)
  (hdefaults : ∀ d ∈ declared, ∀ v, d.default? = some v → s.Rooted v ∧ (s.read v).Written)
include h hs harguments hdefaults

/-- What the bound arguments mean. -/
theorem Bound.meaning (name : String) : s'.meaning (NameMap.ofPairs pairs) name =
    ((declared.filter (·.name = name)).getLast?).map fun d =>
      match (NameMap.get? name arguments).orElse fun _ => d.default? with
      | some v => s.read v
      | none => .node .null "null" [] := by
  rw [Store.meaning, NameMap.get?_ofPairs, h.pairs, List.filter_map, Option.map_map,
    List.getLast?_map, Option.map_map]
  refine Option.map_congr fun d hd => ?_
  obtain ⟨hmem, hname⟩ := List.mem_filter.mp (List.mem_of_getLast? hd)
  have hname : d.name = name := of_decide_eq_true hname
  subst hname
  simp only [Function.comp_apply]
  cases hvalue : (NameMap.get? d.name arguments).orElse fun _ => d.default? with
  | some v =>
    have rooted := (value_induction harguments (hdefaults d hmem) hvalue).1
    exact h.copying.read hs h.sound rooted.1
  | none =>
    obtain ⟨v, hv⟩ := Option.isSome_iff_exists.mp (h.valued d hmem hvalue)
    simp only [hv, Option.getD_some, Option.getD_none]
    exact (h.null v hv).2

/-- All that a scope binds is rooted and written. -/
theorem Bound.rooted {name : String} {v : Int}
    (hv : NameMap.get? name (NameMap.ofPairs pairs) = some v) :
    s'.Rooted v ∧ (s'.read v).Written := by
  have hmem := NameMap.mem_ofPairs (NameMap.mem_of_get? hv)
  rw [h.pairs] at hmem
  obtain ⟨d, hd, he⟩ := List.mem_map.mp hmem
  obtain ⟨-, rfl⟩ := Prod.mk.inj he
  cases hvalue : (NameMap.get? d.name arguments).orElse fun _ => d.default? with
  | some v =>
    obtain ⟨rooted, written⟩ := value_induction harguments (hdefaults d hd) hvalue
    refine ⟨rooted.copying h.copying, ?_⟩
    rw [Option.getD_some, h.copying.read hs h.sound rooted.1]
    exact written
  | none =>
    obtain ⟨v, hv⟩ := Option.isSome_iff_exists.mp (h.valued d hd hvalue)
    simp only [hv, Option.getD_some, Option.getD_none]
    obtain ⟨rooted, hread⟩ := h.null v hv
    exact ⟨rooted, hread ▸ ⟨.null, .null, rfl⟩⟩

end

/-- The scope of a clone gives each argument its bound value. -/
theorem Scoped.boundValue (h : Scoped s t) (hs : s.Sound G) (spread target : Int)
    (name : String) :
    Inlining.boundValue s t.scope target spread name =
      ((((s.variablesOf target).map (·.2)).filter (·.name = name)).getLast?).map fun d =>
        match (NameMap.get? name (applied s t spread)).orElse fun _ => d.default? with
        | some v => s.read v
        | none => .node .null "null" [] := by
  rw [Inlining.boundValue]
  refine Option.map_congr fun d _ => ?_
  have key := h.read_applied hs spread name
  cases hlast : lastWith s spread name with
  | some a =>
    rw [hlast] at key
    obtain ⟨v, hv, hread⟩ := Option.map_eq_some_iff.mp key
    simp only [hv, Option.orElse_some, ← hread]
  | none =>
    rw [hlast] at key
    simp only [Option.map_eq_none_iff.mp key, Option.orElse_none]
    cases d.default? <;> rfl

end Inlining

end GraphDoc
