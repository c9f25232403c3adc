import GraphDoc.Proofs.Spelling

/-!
# Stages of a compilation

`Project.After` gives the stores that a compilation goes through, stage by stage and, within the
inliner, task by task. The values of all these stores are an owned forest.
-/

set_option autoImplicit false

namespace GraphDoc

/-- The stages of a compilation, in order. -/
inductive Stage where
  | preparation | loading | runtimeScalars | componentFields | lists | sweeps | rules
  | pagination | listOperations | componentSpreads | inlining
deriving DecidableEq

/-- The store that a compilation of a project has after a stage. -/
inductive Project.After (p : Project) : Stage → Store → Prop where
  | prepare {s : Store} (h : p.prepare = .ok s) : p.After .preparation s
  | load {s : Store} (h : p.After .preparation s) : p.After .loading s.loadSources.1
  | retype {s : Store} (h : p.After .loading s) :
      p.After .runtimeScalars (s.retypeScalars p.config.runtimeScalars).1
  | discover {s : Store} (h : p.After .runtimeScalars s) :
      p.After .componentFields s.discoverComponentFields.1
  | list {s t : Store} {found : Diagnostics} (h : p.After .componentFields s)
      (listed : s.discoverLists p.config = .ok (t, found)) : p.After .lists t
  | sweep {s t : Store} {found : Diagnostics} (h : p.After .lists s)
      (swept : Rule.runAll Rule.sweeps p.config s = .ok (t, found)) : p.After .sweeps t
  | rule {s t : Store} {found : Diagnostics} (h : p.After .sweeps s)
      (ruled : Rule.runAll Rule.rules p.config s = .ok (t, found)) : p.After .rules t
  | paginate {s : Store} (h : p.After .rules s) :
      p.After .pagination (s.preparePagination p.config).1
  | generate {s : Store} (h : p.After .pagination s) :
      p.After .listOperations s.generateListOperations.1
  | spread {s : Store} (h : p.After .listOperations s) :
      p.After .componentSpreads s.spreadComponentFields.1
  | inline {s : Store} (h : p.After .componentSpreads s) (tasks : Nat) :
      p.After .inlining ((Inlining.start s).run tasks).store

namespace Project

open Store

variable {p : Project} {s : Store}

theorem After.of_analyse {found : Diagnostics} {s₀ : Store} (prepared : p.prepare = .ok s₀)
    (analysed : p.analyse s₀ = .ok (s, found)) : p.After .rules s := by
  obtain ⟨s₁, s₂, _, _, _, h₁, h₂, h₃, _⟩ := analyse_eq_ok analysed
  exact .rule (.sweep (.list (.discover (.retype (.load (.prepare prepared)))) h₁) h₂) h₃

theorem After.of_handover (h : p.handover? = some s) : p.After .componentSpreads s := by
  obtain ⟨s₀, s₁, found, prepared, analysed, _, rfl⟩ := handover?_eq_some h
  exact .spread (.generate (.paginate (.of_analyse prepared analysed)))

/-- A compilation ends with a store that it went through. -/
theorem After.of_compile {cancelled : Bool} {c : Compiled} (h : p.compile cancelled = .ok c) :
    p.After .rules c.store ∨ p.After .inlining c.store := by
  obtain ⟨_, s₀, s₁, found, prepared, analysed, hc⟩ := compile_eq_ok h
  rcases hc with ⟨_, rfl⟩ | ⟨fine, hstore, _⟩
  · exact .inl (.of_analyse prepared analysed)
  · refine .inr ?_
    rw [hstore, transform, Inlining.inlineArguments_store]
    exact .inline (.of_handover (handover?_of_analyse prepared analysed fine)) _

/-- There is one store after each stage before the inliner. -/
theorem After.unique {stage : Stage} {t : Store} (h : p.After stage s) (h' : p.After stage t)
    (hne : stage ≠ .inlining) : s = t := by
  induction h generalizing t with
  | prepare h =>
    cases h' with
    | prepare h' => exact Except.ok.inj (h.symm.trans h')
  | load _ ih =>
    cases h' with
    | load h' => rw [ih h' nofun]
  | retype _ ih =>
    cases h' with
    | retype h' => rw [ih h' nofun]
  | discover _ ih =>
    cases h' with
    | discover h' => rw [ih h' nofun]
  | list _ listed ih =>
    cases h' with
    | list h' listed' =>
      obtain rfl := ih h' nofun
      exact (Prod.mk.inj (Except.ok.inj (listed.symm.trans listed'))).1
  | sweep _ swept ih =>
    cases h' with
    | sweep h' swept' =>
      obtain rfl := ih h' nofun
      exact (Prod.mk.inj (Except.ok.inj (swept.symm.trans swept'))).1
  | rule _ ruled ih =>
    cases h' with
    | rule h' ruled' =>
      obtain rfl := ih h' nofun
      exact (Prod.mk.inj (Except.ok.inj (ruled.symm.trans ruled'))).1
  | paginate _ ih =>
    cases h' with
    | paginate h' => rw [ih h' nofun]
  | generate _ ih =>
    cases h' with
    | generate h' => rw [ih h' nofun]
  | spread _ ih =>
    cases h' with
    | spread h' => rw [ih h' nofun]
  | inline => exact absurd rfl hne

/-- What is kept until a stage. Until list operations are generated no document borrows selections;
while components are looked for, their type is in the schema. -/
def Keeps (s : Store) : Stage → Prop
  | .preparation | .loading | .runtimeScalars =>
    s.Ready NoBorrowers ∧ s.schema.types.contains Framework.componentType = true
  | .listOperations | .componentSpreads => ∃ n, s.Ready (Beyond n)
  | .inlining => ∃ G, s.Sound G
  | _ => s.Ready NoBorrowers

theorem After.keeps {stage : Stage} (h : p.After stage s) : Keeps s stage := by
  induction h with
  | prepare h => exact prepare_ready h
  | load _ ih =>
    have loaded := loadSources_ready ih.1
    exact ⟨loaded.ready, loaded.schema ▸ ih.2⟩
  | retype _ ih =>
    have marked := retypeScalars_marking ih.1 p.config.runtimeScalars
    exact ⟨marked.ready, marked.schema ▸ ih.2⟩
  | discover _ ih => exact (discoverComponentFields_registering ih.1 ih.2).ready
  | list _ listed ih => exact discoverLists_ready ih listed
  | sweep _ swept ih =>
    exact Rule.runAll_induction (P := Ready NoBorrowers) (fun r hr => Rule.keeps_of_mem
      (fun _ _ _ => checkPaging_ready) r (List.mem_append_left _ hr)) ih swept
  | rule _ ruled ih =>
    exact Rule.runAll_induction (P := Ready NoBorrowers) (fun r hr => Rule.keeps_of_mem
      (fun _ _ _ => checkPaging_ready) r (List.mem_append_right _ hr)) ih ruled
  | paginate _ ih => exact (preparePagination_paging p.config ih).ready
  | generate _ ih => exact ⟨_, (generateListOperations_generating ih).ready⟩
  | spread _ ih =>
    obtain ⟨n, ready⟩ := ih
    exact ⟨n, spreadComponentFields_ready ready⟩
  | inline _ tasks ih =>
    obtain ⟨n, ready⟩ := ih
    obtain ⟨G, handed⟩ := Inlining.Handed.of_ready ready
    exact ⟨G, (handed.running.run handed.sound.closed handed.lasting tasks).held.sound⟩

theorem After.sound {stage : Stage} (h : p.After stage s) : ∃ G, s.Sound G := by
  have keeps := h.keeps
  cases stage with
  | preparation | loading | runtimeScalars => exact ⟨_, keeps.1.toSound⟩
  | listOperations | componentSpreads =>
    obtain ⟨n, ready⟩ := keeps
    exact ⟨_, ready.toSound⟩
  | inlining => exact keeps
  | _ => exact ⟨_, Ready.toSound keeps⟩

end Project

/-! ## The forest of values -/

namespace Store

variable {s : Store}

/-- The second value is a child of the first. -/
def Contains (s : Store) (parent child : Int) : Prop :=
  ∃ l ∈ s.valueLinks.rows, l.parent = parent ∧ l.value = child

/-- Each value has at most one owner, and no value is inside itself. Only lists and objects have
children: those of a list are nameless, those of an object have names. All that is referred to is
there. -/
structure Forest (s : Store) : Prop where
  single : ∀ o o' v, s.owns o = some v → s.owns o' = some v → o = o'
  acyclic : ∀ v, ¬ Relation.TransGen s.Contains v v
  shaped : ∀ l ∈ s.valueLinks.rows, ∃ row, s.values.get? l.parent = some row ∧
    ((row.kind = .list ∧ l.name? = none) ∨ (row.kind = .object ∧ l.name?.isSome = true))
  present : ∀ o v, s.owns o = some v → s.values.contains v = true

/-- Links lead upwards in number, so no chain of them comes back. -/
theorem Sound.lt_of_transGen {G : Int → Prop} (h : s.Sound G) {a b : Int}
    (hab : Relation.TransGen s.Contains a b) : a < b := by
  induction hab with
  | single hl =>
    obtain ⟨l, hl, rfl, rfl⟩ := hl
    exact h.descends l hl
  | tail _ hl ih =>
    obtain ⟨l, hl, rfl, rfl⟩ := hl
    exact Int.lt_trans ih (h.descends l hl)

theorem Sound.forest {G : Int → Prop} (h : s.Sound G) : s.Forest where
  single := h.single
  acyclic := fun v hv => Int.lt_irrefl v (h.lt_of_transGen hv)
  shaped := fun l hl => by
    obtain ⟨row, hrow⟩ := Table.contains_iff.mp (h.closed.valueLinks l hl).1
    exact ⟨row, hrow, h.shaped l hl row hrow⟩
  present := fun _ _ ho => h.closed.contains_of_owns ho

end Store

/-- The values are an owned forest after every stage, after every task of the inliner, and in the
end, whatever the compilation found. -/
theorem values_forest (p : Project) :
    (∀ stage s, p.After stage s → s.Forest) ∧
    ∀ cancelled c, p.compile cancelled = .ok c → c.store.Forest := by
  have all : ∀ stage s, p.After stage s → s.Forest := by
    intro stage s h
    obtain ⟨G, sound⟩ := h.sound
    exact sound.forest
  refine ⟨all, fun cancelled c h => ?_⟩
  rcases Project.After.of_compile h with h | h
  · exact all _ _ h
  · exact all _ _ h

/-- The values of the sample are an owned forest after the first task of the inliner, which makes a
clone. -/
theorem sample_values_forest : ∃ s, sample.handover? = some s ∧
    sample.After .inlining ((Inlining.start s).run 1).store ∧
    ((Inlining.start s).run 1).store.Forest := by
  obtain ⟨s, run⟩ := Inlining.exists_sampleRun
  have after := Project.After.inline (.of_handover run.handed) 1
  exact ⟨s, run.handed, after, (values_forest sample).1 _ _ after⟩

end GraphDoc
