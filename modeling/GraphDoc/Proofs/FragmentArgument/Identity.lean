import GraphDoc.Proofs.Printing
import GraphDoc.Proofs.Spelling

/-!
# Identities of clones

Spreads share a clone if the texts of the arguments that they apply are the same. Different arguments
have different texts, unless they are confusable.
-/

set_option autoImplicit false

namespace GraphDoc

theorem NameMap.get?_map {α β : Type} (f : α → β) (m : NameMap α) (name : String) :
    get? name (m.map fun e => (e.1, f e.2)) = (get? name m).map f := by
  induction m with
  | nil => rfl
  | cons e m ih =>
    rw [List.map_cons, get?, get?, ih]
    split <;> rfl

namespace Inlining

open Store

/-- The value that a spread applies under a name. -/
def Encounter.applies (e : Encounter) (name : String) : Option Value :=
  (NameMap.get? name (applied e.before.store e.task e.spread.1)).map e.before.store.read

theorem get?_appliedTexts (s : Store) (t : Task) (spread : Int) (name : String) :
    NameMap.get? name (appliedTexts s t spread) =
      ((NameMap.get? name (applied s t spread)).map s.read).map (·.raw) := by
  rw [appliedTexts, NameMap.get?_map (fun v => (s.read v).raw), Option.map_map]
  rfl

theorem Handed.of_mem_encounters {s : Store} {G : Int → Prop} (h : Handed G s) {n : Nat}
    {e : Encounter} (he : e ∈ encounters ((start s).run n)) :
    texts e.before.store (applied e.before.store e.task e.spread.1) =
      .ok (appliedTexts e.before.store e.task e.spread.1) ∧
    ∀ name v, e.applies name = some v → v.Written := by
  have running := h.running.run h.sound.closed h.lasting n
  obtain ⟨_, _, _, _, _, hw, _⟩ := running.of_mem_encounters h.sound.closed h.lasting he
  have hs := hw.held.sound
  have ht := hw.due.scope
  refine ⟨texts_eq hs fun a ha => (ht.applied_rooted hs ha).1, fun name v hv => ?_⟩
  obtain ⟨id, hid, rfl⟩ := Option.map_eq_some_iff.mp hv
  exact ((hw.held.values ht e.spread.1 0).1 name id hid).2

/-- Spreads that apply different arguments have different identities, unless two different values
under one name are confusable. -/
theorem identities_differ {project : Project} {s : Store} (h : project.handover? = some s)
    {m n : Nat} {e e' : Encounter} (he : e ∈ encounters ((start s).run m))
    (he' : e' ∈ encounters ((start s).run n)) (differ : e.applies ≠ e'.applies)
    (clear : ∀ name v v', e.applies name = some v → e'.applies name = some v' → v ≠ v' →
      ¬ v.Confusable v') :
    ∃ identity identity',
      texts e.before.store (applied e.before.store e.task e.spread.1) = .ok identity ∧
      texts e'.before.store (applied e'.before.store e'.task e'.spread.1) = .ok identity' ∧
      (∃ name, NameMap.get? name identity ≠ NameMap.get? name identity') ∧
      CloneName.identity identity ≠ CloneName.identity identity' := by
  obtain ⟨G, hs⟩ := handed h
  obtain ⟨htexts, hwritten⟩ := hs.of_mem_encounters he
  obtain ⟨htexts', hwritten'⟩ := hs.of_mem_encounters he'
  obtain ⟨name, hname⟩ := Function.ne_iff.mp differ
  have apart : NameMap.get? name (appliedTexts e.before.store e.task e.spread.1) ≠
      NameMap.get? name (appliedTexts e'.before.store e'.task e'.spread.1) := by
    rw [get?_appliedTexts, get?_appliedTexts]
    intro same
    apply hname
    change (e.applies name).map (·.raw) = (e'.applies name).map (·.raw) at same
    cases hv : e.applies name with
    | none =>
      rw [hv, Option.map_none] at same
      exact (Option.map_eq_none_iff.mp same.symm).symm
    | some v =>
      rw [hv, Option.map_some] at same
      obtain ⟨v', hv', hraw⟩ := Option.map_eq_some_iff.mp same.symm
      rw [hv']
      by_contra other
      have other : v ≠ v' := fun same => other (congrArg some same)
      exact other (Value.eq_of_raw_eq (hwritten name v hv) (hwritten' name v' hv')
        (clear name v v' hv hv' other) hraw.symm)
  refine ⟨_, _, htexts, htexts', ⟨name, apart⟩, fun same => apart ?_⟩
  rw [CloneName.identity_injective same]

/-! ## A number and a text -/

/-- Three spreads of one fragment apply a number and two texts, the first of which is written like
the number. -/
def numbered : Project where
  schema := "type Query \x7b users(name: String): String \x7d"
  sources := [{
    filepath := "numbered.graphql"
    content := "fragment Named on Query @arguments(name: \x7b type: \"String\" \x7d) \x7b
        users(name: $name)
      \x7d
      query A \x7b ...Named @with(name: 5) \x7d
      query B \x7b ...Named @with(name: \"5\") \x7d
      query C \x7b ...Named @with(name: \"6\") \x7d" }]

set_option maxRecDepth 10000 in
def numberedSpelling : Spelling numbered := ⟨_, [_], rfl, rfl⟩

/-- An argument that a spread applies, with whether there is a float in it that is written like a
name. -/
structure Outline where
  name : String
  kind : ValueKind
  raw : String
  namedFloat : Bool
deriving DecidableEq

def Encounter.outline (e : Encounter) : List Outline :=
  (applied e.before.store e.task e.spread.1).map fun a =>
    let v := e.before.store.read a.2
    ⟨a.1, v.kind, v.raw, v.hasNamedFloat⟩

/-- A spread of the fragment that applies one argument. -/
structure Encounter.AppliesOne (e : Encounter) (kind : ValueKind) (raw : String) : Prop where
  spread : e.spread.2 = "Named"
  applies : ∃ v : Value, v.kind = kind ∧ v.raw = raw ∧ v.hasNamedFloat = false ∧
    ∀ name, e.applies name = if name = "name" then some v else none
  texts : appliedTexts e.before.store e.task e.spread.1 = [("name", raw)]

theorem Encounter.appliesOne {e : Encounter} {kind : ValueKind} {raw : String}
    (spread : e.spread.2 = "Named") (h : e.outline = [⟨"name", kind, raw, false⟩]) :
    e.AppliesOne kind raw := by
  obtain ⟨a, ha, hview⟩ := List.map_eq_singleton_iff.mp h
  obtain ⟨hname, hkind, hraw, hfloat⟩ := Outline.mk.inj hview
  refine ⟨spread, ⟨_, hkind, hraw, hfloat, fun name => ?_⟩, ?_⟩
  · rw [Encounter.applies, ha, NameMap.get?, hname]
    split
    · rfl
    · rfl
  · rw [appliedTexts, ha, List.map_singleton, hname, hraw]

/-- The spreads that each of the first four steps comes upon. -/
def outlines (s : Store) : List (List (String × List Outline)) :=
  (List.range 4).map fun n => (encounters ((start s).run n)).map fun e => (e.spread.2, e.outline)

set_option maxRecDepth 100000 in
theorem numbered_outlines : (numberedSpelling.analysis?.any fun e =>
    decide (outlines (numbered.rewrite e.2) = [[("Named", [⟨"name", .int, "5", false⟩])], [],
      [("Named", [⟨"name", .string, "5", false⟩])],
      [("Named", [⟨"name", .string, "6", false⟩])]])) = true := by
  decide +kernel

theorem exists_numbered : ∃ s, numbered.handover? = some s ∧
    (∃ e ∈ encounters ((start s).run 0), e.AppliesOne .int "5") ∧
    (∃ e ∈ encounters ((start s).run 2), e.AppliesOne .string "5") ∧
    ∃ e ∈ encounters ((start s).run 3), e.AppliesOne .string "6" := by
  obtain ⟨s₀, s, prepared, analysed, check⟩ := numberedSpelling.exists_of_any numbered_outlines
  refine ⟨_, Project.handover?_of_analyse prepared analysed rfl, ?_⟩
  generalize numbered.rewrite s = s at *
  have one : ∀ {n : Nat} {kind : ValueKind} {raw : String},
      ((encounters ((start s).run n)).map fun e => (e.spread.2, e.outline)) =
        [("Named", [⟨"name", kind, raw, false⟩])] →
      ∃ e ∈ encounters ((start s).run n), e.AppliesOne kind raw := by
    intro n kind raw h
    obtain ⟨e, he, hview⟩ := List.map_eq_singleton_iff.mp h
    obtain ⟨spread, outline⟩ := Prod.mk.inj hview
    exact ⟨e, he ▸ List.mem_singleton_self e, Encounter.appliesOne spread outline⟩
  have lists := of_decide_eq_true check
  simp only [outlines, List.range, List.range.loop, List.map_cons, List.map_nil, List.cons.injEq,
    and_true] at lists
  exact ⟨one lists.1, one lists.2.2.1, one lists.2.2.2⟩

/-- Spreads of one fragment that apply the number 5 and the text "5" have one identity. -/
theorem number_and_text_share_identity : ∃ s e e' identity, numbered.handover? = some s ∧
    e ∈ encounters ((start s).run 0) ∧ e' ∈ encounters ((start s).run 2) ∧
    e.spread.2 = e'.spread.2 ∧ e.applies ≠ e'.applies ∧
    texts e.before.store (applied e.before.store e.task e.spread.1) = .ok identity ∧
    texts e'.before.store (applied e'.before.store e'.task e'.spread.1) = .ok identity := by
  obtain ⟨s, h, ⟨e, he, one⟩, ⟨e', he', one'⟩, _⟩ := exists_numbered
  obtain ⟨G, hs⟩ := handed h
  obtain ⟨v, hkind, _, _, hv⟩ := one.applies
  obtain ⟨v', hkind', _, _, hv'⟩ := one'.applies
  refine ⟨s, e, e', _, h, he, he', one.spread.trans one'.spread.symm, fun same => ?_,
    (hs.of_mem_encounters he).1, (hs.of_mem_encounters he').1.trans ?_⟩
  · have hname := congrFun same "name"
    rw [hv, hv', if_pos rfl, if_pos rfl] at hname
    rw [Option.some.inj hname, hkind'] at hkind
    cases hkind
  · rw [one.texts, one'.texts]

/-- Spreads that apply the texts "5" and "6" have two identities. -/
theorem numbered_identities_differ : ∃ s e e' identity identity', numbered.handover? = some s ∧
    e ∈ encounters ((start s).run 2) ∧ e' ∈ encounters ((start s).run 3) ∧
    texts e.before.store (applied e.before.store e.task e.spread.1) = .ok identity ∧
    texts e'.before.store (applied e'.before.store e'.task e'.spread.1) = .ok identity' ∧
    CloneName.identity identity ≠ CloneName.identity identity' := by
  obtain ⟨s, h, _, ⟨e, he, one⟩, ⟨e', he', one'⟩⟩ := exists_numbered
  obtain ⟨v, hkind, hraw, plain, hv⟩ := one.applies
  obtain ⟨v', hkind', hraw', plain', hv'⟩ := one'.applies
  have differ : e.applies ≠ e'.applies := by
    intro same
    have hname := congrFun same "name"
    rw [hv, hv', if_pos rfl, if_pos rfl] at hname
    rw [Option.some.inj hname, hraw'] at hraw
    exact absurd hraw (by decide)
  have clear : ∀ name w w', e.applies name = some w → e'.applies name = some w' → w ≠ w' →
      ¬ w.Confusable w' := by
    intro name w w' hw hw' _
    rw [hv] at hw
    rw [hv'] at hw'
    obtain ⟨_, hw⟩ := Option.ite_none_right_eq_some.mp hw
    obtain ⟨_, hw'⟩ := Option.ite_none_right_eq_some.mp hw'
    rw [← Option.some.inj hw, ← Option.some.inj hw']
    simp [Value.Confusable, hkind, hkind', plain, plain']
  obtain ⟨identity, identity', htexts, htexts', _, apart⟩ := identities_differ h he he' differ clear
  exact ⟨s, e, e', identity, identity', h, he, he', htexts, htexts', apart⟩

end Inlining

end GraphDoc
