import GraphDoc.Proofs.Names

/-!
# Accounts of documents

Every stage leaves the documents that it finds in their places: it may give one of them another name
or put new ones behind them, and does nothing else to them. Loading brings one document for each
definition, a list with a name brings three, and the inliner brings its clones. So the documents at
the end can be counted from what was loaded, listed and cloned.
-/

set_option autoImplicit false

namespace GraphDoc

/-- What a document is apart from its name. -/
def DocumentRow.nameless (d : DocumentRow) : DocumentRow := { d with name := "" }

namespace Store

variable {s s' s'' : Store}

/-- The documents with their numbers, but without their names. -/
def registered (s : Store) : List (Int × DocumentRow) :=
  s.documents.entries.map fun e => (e.1, e.2.nameless)

/-- The documents of `s` are the first ones of `s'`, with the numbers that they had in `s`. Only
their names may be others. -/
def Retains (s s' : Store) : Prop := s.registered <+: s'.registered

theorem Retains.refl (s : Store) : s.Retains s := List.prefix_refl _

theorem Retains.trans (h : s.Retains s') (h' : s'.Retains s'') : s.Retains s'' :=
  List.IsPrefix.trans h h'

theorem retains_of_registered (h : s'.registered = s.registered) : s.Retains s' :=
  ⟨[], by rw [List.append_nil, h]⟩

theorem registered_of_documents (h : s'.documents = s.documents) :
    s'.registered = s.registered := by
  rw [registered, registered, h]

theorem retains_of_grows {P : DocumentRow → Prop}
    (h : Table.Grows P s.documents s'.documents) : s.Retains s' :=
  h.entries_prefix.map _

@[simp] theorem stats_documents (s : Store) (clones : Nat) :
    (s.stats clones).documents = s.documents.size := rfl

@[simp] theorem stats_clones (s : Store) (clones : Nat) : (s.stats clones).clones = clones := rfl

/-! ## Stages before the inliner -/

theorem registered_retypeScalars (s : Store) (scalars : NameMap String) :
    (s.retypeScalars scalars).1.registered = s.registered :=
  registered_of_documents (by rw [retypeScalars_retypes])

theorem registered_registerComponent (s : Store) (d : ComponentField.Declaration) :
    (s.registerComponent d).registered = s.registered := by
  rw [registerComponent]
  split
  · rfl
  · refine List.map_map.trans (List.map_congr_left fun e _ => ?_)
    dsimp only [Function.comp]
    split <;> rfl

theorem registered_discoverComponentFields (s : Store) :
    s.discoverComponentFields.1.registered = s.registered := by
  refine List.foldlRecOn (motive := fun outcome : Store × Diagnostics × List String =>
    outcome.1.registered = s.registered) _ _ rfl fun outcome ho group _ => ?_
  cases group with
  | nil => exact ho
  | cons d others =>
    rw [registerGroup]
    split
    · exact ho
    · exact (registered_registerComponent _ d).trans ho

theorem Relists.registered (h : Relists s s') : s'.registered = s.registered :=
  registered_of_documents (by rw [h])

theorem addListOperations_grows (s : Store) (l : ListRow) :
    Table.Grows (fun _ => True) s.documents (s.addListOperations l).documents := by
  simp only [addListOperations, documents_addDeleteDirective, documents_addRemoveFragment,
    List.foldl_cons, List.foldl_nil, documents_addRecordFragment]
  exact ((Table.Grows.refl.push trivial).push trivial).push trivial

theorem generateListOperations_grows (s : Store) :
    Table.Grows (fun _ => True) s.documents s.generateListOperations.1.documents :=
  List.foldlRecOn (motive := fun t : Store => Table.Grows _ s.documents t.documents) _ _ .refl
    fun t ht l _ => ht.trans (addListOperations_grows t l)

end Store

namespace Inlining

open Store

variable {s₀ : Store} {G : Int → Prop}

/-! ## Tasks of the inliner -/

theorem Running.retains_step (hs₀ : s₀.Closed)
    (hG : ∀ d : Int, (s₀.documents.issued : Int) < d → ¬ G d) {w : Inlining}
    (h : Running G s₀ w) : w.store.Retains w.step.store := by
  cases hnext : w.next? with
  | none =>
    rw [step_of_isDone (next?_eq_none_iff.mp hnext)]
    exact .refl _
  | some next =>
    obtain ⟨u, p, hst⟩ := h.stepped hs₀ hG hnext
    have opened := hst.performed.opened.advances h.held.sound
    have visited := hst.performed.visits.advances hs₀ hst.performed.start
    rw [hst.step]
    exact retains_of_grows (opened.trans visited).documents

theorem Handed.retains_run (h : Handed G s₀) {m n : Nat} (hle : m ≤ n) :
    ((start s₀).run m).store.Retains ((start s₀).run n).store := by
  induction hle with
  | refl => exact .refl _
  | step _ ih =>
    rw [run_succ]
    have running := h.running.run h.sound.closed h.lasting
    exact ih.trans ((running _).retains_step h.sound.closed h.lasting)

theorem Handed.retains_finished (h : Handed G s₀) (n : Nat) :
    ((start s₀).run n).store.Retains (finished s₀).store := by
  rcases Nat.le_total n (fuelFor s₀) with hle | hle
  · exact h.retains_run hle
  · rw [← run_of_isDone h.isDone (n - fuelFor s₀), finished, ← run_add, Nat.add_sub_cancel' hle]
    exact .refl _

theorem Running.made_step (hs₀ : s₀.Closed)
    (hG : ∀ d : Int, (s₀.documents.issued : Int) < d → ¬ G d) {w : Inlining} (h : Running G s₀ w)
    (hmade : w.made = w.clones.length) : w.step.made = w.step.clones.length := by
  cases hnext : w.next? with
  | none =>
    rw [step_of_isDone (next?_eq_none_iff.mp hnext)]
    exact hmade
  | some next =>
    obtain ⟨u, p, hst⟩ := h.stepped hs₀ hG hnext
    have length := hst.performed.visits.length
    rw [hst.step]
    simp only [List.length_nil, Nat.add_zero] at length
    exact (congrArg (· + _) hmade).trans length.symm

theorem Handed.made_finished (h : Handed G s₀) :
    (finished s₀).made = (finished s₀).clones.length :=
  (h.running.run_induction h.sound.closed h.lasting
    (P := fun w => w.made = w.clones.length) rfl
    (fun _ hw => hw.made_step h.sound.closed h.lasting) _).2

end Inlining

theorem Stage.eq_or_lt {a b : Stage} (h : a.ctorIdx < b.ctorIdx + 1) :
    a = b ∨ a.ctorIdx < b.ctorIdx := by
  revert h
  cases a <;> cases b <;> decide

namespace Project

open Store

variable {p : Project} {s s₀ : Store}

/-! ## All stages -/

theorem After.new (h : p.After .preparation s) : s.documents.entries = [] := by
  cases h with
  | prepare h => rw [prepare_rest h]; rfl

theorem After.retains {stage stage' : Stage} {t : Store} (h : p.After stage s)
    (h' : p.After stage' t) (hlt : stage.ctorIdx < stage'.ctorIdx) : s.Retains t := by
  -- `u` is the store before the last stage; the stage of `s` is that of `u` or an earlier one.
  have earlier {before : Stage} {u : Store} (hu : p.After before u) (hne : before ≠ .inlining)
      (ih : stage.ctorIdx < before.ctorIdx → s.Retains u)
      (hle : stage.ctorIdx < before.ctorIdx + 1) : s.Retains u := by
    rcases Stage.eq_or_lt hle with rfl | hlt
    · rw [h.unique hu hne]
      exact .refl u
    · exact ih hlt
  induction h' with
  | prepare => exact absurd hlt (Nat.not_lt_zero _)
  | load h' ih =>
    refine (earlier h' nofun ih hlt).trans ?_
    rw [Retains, registered, h'.new]
    exact List.nil_prefix
  | retype h' ih =>
    exact (earlier h' nofun ih hlt).trans (retains_of_registered (registered_retypeScalars _ _))
  | discover h' ih =>
    exact (earlier h' nofun ih hlt).trans
      (retains_of_registered (registered_discoverComponentFields _))
  | list h' listed ih =>
    exact (earlier h' nofun ih hlt).trans
      (retains_of_registered (discoverLists_relists listed).registered)
  | sweep h' swept ih =>
    refine (earlier h' nofun ih hlt).trans (retains_of_registered (Relists.registered ?_))
    exact runAll_relists (fun r hr => List.mem_append_left _ hr) swept
  | rule h' ruled ih =>
    refine (earlier h' nofun ih hlt).trans (retains_of_registered (Relists.registered ?_))
    exact runAll_relists (fun r hr => List.mem_append_right _ hr) ruled
  | paginate h' ih =>
    refine (earlier h' nofun ih hlt).trans (retains_of_registered (registered_of_documents ?_))
    rw [(preparePagination_paging p.config h'.keeps).rest]
  | generate h' ih =>
    exact (earlier h' nofun ih hlt).trans (retains_of_grows (generateListOperations_grows _))
  | spread h' ih =>
    obtain ⟨n, ready⟩ := h'.keeps
    refine (earlier h' nofun ih hlt).trans (retains_of_registered (registered_of_documents ?_))
    rw [(spreadComponentFields_spreads ready).rest]
  | inline h' tasks ih =>
    obtain ⟨n, ready⟩ := h'.keeps
    obtain ⟨G, handed⟩ := Inlining.Handed.of_ready ready
    exact (earlier h' nofun ih hlt).trans (handed.retains_run (Nat.zero_le tasks))

theorem After.retains_finished {G : Int → Prop} {stage : Stage} {t : Store} (h : p.After stage t)
    (hs : p.After .componentSpreads s) (handed : Inlining.Handed G s) :
    t.Retains (Inlining.finished s).store := by
  by_cases hstage : stage = .inlining
  · subst hstage
    cases h with
    | inline h tasks =>
      rw [h.unique hs nofun]
      exact handed.retains_finished tasks
  · refine h.retains (.inline hs (Inlining.fuelFor s)) ?_
    revert hstage
    cases stage <;> decide

/-! ## The count -/

theorem names_of_keys {ds : List DocumentRow} {names : List String}
    (h : ds.map (·.key) = names.map (DocumentKind.fragment, ·)) : ds.map (·.name) = names := by
  have names := congrArg (List.map (·.2)) h
  rw [List.map_map, List.map_map] at names
  exact names.trans (List.map_id _)

theorem registered_analyse (analysed : p.analyse s₀ = .ok (s, [])) :
    s.registered = s₀.loadSources.1.registered := by
  obtain ⟨_, _, s₁, s₂, listed, swept, ruled⟩ := analyse_clean analysed
  obtain ⟨first, second⟩ := validate_repages swept ruled
  exact ((discoverLists_relists listed).trans (first.trans second).1).registered.trans
    ((registered_discoverComponentFields _).trans (registered_retypeScalars _ _))

theorem length_rows_analyse (prepared : p.prepare = .ok s₀)
    (analysed : p.analyse s₀ = .ok (s, [])) :
    s.documents.rows.length = p.definitions.length := by
  have loaded := (loadSources_definitions (prepare_ready prepared).1.closed
    (After.prepare prepared).new).length_eq
  rw [prepare_sources prepared] at loaded
  have same := congrArg List.length (registered_analyse analysed)
  rw [registered, registered, List.length_map, List.length_map] at same
  rw [Table.rows, List.length_map, same, loaded, definitions]

theorem length_generatedFragments (s : Store) : (Rule.generatedFragments s).length =
    3 * ((s.lists.rows.map (·.name)).filter (· ≠ "")).length := by
  rw [Rule.generatedFragments]
  induction s.lists.rows with
  | nil => rfl
  | cons l ls ih =>
    rw [List.flatMap_cons, List.length_append, ih, List.map_cons, List.filter_cons]
    by_cases h : l.name = ""
    · simp [h]
    · simp [h, Framework.operationEndings]
      omega

theorem stats_of_clean {cancelled : Bool} {c : Compiled} (h : p.compile cancelled = .ok c)
    (prepared : p.prepare = .ok s₀) (analysed : p.analyse s₀ = .ok (s, [])) :
    c.stats = c.store.stats (Inlining.finished (p.rewrite s)).made := by
  obtain ⟨_, t₀, t, found, prepared', analysed', hc⟩ := compile_eq_ok h
  obtain rfl := Except.ok.inj (prepared.symm.trans prepared')
  obtain ⟨rfl, rfl⟩ := Prod.mk.inj (Except.ok.inj (analysed.symm.trans analysed'))
  rcases hc with ⟨faulty, _⟩ | ⟨_, _, _, hstats⟩
  · cases faulty
  · rw [hstats, transform, Inlining.inlineArguments_made]

/-- If a compilation finds nothing wrong, its documents are the definitions that were loaded, three
for each list that was found with a name, and the clones. The inliner brought as many documents as
it counted, and no two of them have one name. What a stage leaves in the store all later ones
retain. -/
theorem documents_accounted {cancelled : Bool} {c : Compiled} (h : p.compile cancelled = .ok c)
    (clean : c.diagnostics = []) :
    ∃ listed handed cloned, p.After .lists listed ∧ p.After .componentSpreads handed ∧
      c.stats.documents = c.store.documents.size ∧
      c.stats.documents = p.definitions.length +
        3 * ((listed.lists.rows.map (·.name)).filter (· ≠ "")).length + c.stats.clones ∧
      c.store.documents.rows = handed.documents.rows ++ cloned ∧
      cloned.length = c.stats.clones ∧ (cloned.map (·.name)).Nodup ∧
      (∀ stage s, p.After stage s → s.Retains c.store) ∧
      (∀ stage stage' s t, p.After stage s → p.After stage' t → stage.ctorIdx < stage'.ctorIdx →
        s.Retains t) ∧
      ∀ m n, m ≤ n → ((Inlining.start handed).run m).store.Retains
        ((Inlining.start handed).run n).store := by
  obtain ⟨s₀, s, prepared, analysed, hstore⟩ := compile_clean h clean
  obtain ⟨_, _, s₁, s₂, listed, swept, ruled⟩ := analyse_clean analysed
  obtain ⟨first, second⟩ := validate_repages swept ruled
  have handover := handover?_of_analyse prepared analysed rfl
  obtain ⟨G, handed⟩ := Inlining.handed handover
  have ready := analyse_ready (prepare_ready prepared).1 (prepare_ready prepared).2 analysed
  obtain ⟨brought, cloned, rows, rows', keys, keys'⟩ := rows_transform ready handed
  have hclones : c.stats.clones = cloned.length := by
    have length := congrArg List.length keys'
    rw [List.length_map, List.length_map, ← handed.made_finished] at length
    rw [stats_of_clean h prepared analysed, stats_clones, length]
  have hdocuments : c.stats.documents = c.store.documents.size := by
    rw [stats_of_clean h prepared analysed, stats_documents]
  have hrows : c.store.documents.rows = (p.rewrite s).documents.rows ++ cloned := by
    rw [transform] at rows'
    rw [hstore, rows, rows']
  refine ⟨s₁, p.rewrite s, cloned, ?_, .of_handover handover, hdocuments, ?_, hrows, hclones.symm,
    ?_, ?_, fun _ _ _ _ hs ht => hs.retains ht, fun _ _ => handed.retains_run⟩
  · exact .list (.discover (.retype (.load (.prepare prepared)))) listed
  · have brings := congrArg List.length keys
    rw [List.length_map, List.length_map, length_generatedFragments,
      (first.trans second).2] at brings
    have size := congrArg List.length hrows
    rw [List.length_append, rows, List.length_append, brings,
      length_rows_analyse prepared analysed, Table.rows, List.length_map] at size
    rw [hdocuments, hclones]
    exact size
  · rw [names_of_keys keys']
    exact handed.ran.held.distinct
  · intro stage t ht
    rw [hstore, Inlining.inlineArguments_store]
    exact ht.retains_finished (.of_handover handover) handed

/-- The documents of the gallery are its definitions, those of its list and its clone. -/
theorem gallery_accounted : ∃ c s, gallery.compile false = .ok c ∧ c.diagnostics = [] ∧
    gallery.After .rules s ∧ Rule.generatedFragments s ≠ [] ∧ c.stats.clones ≠ 0 ∧
    ∃ listed handed cloned, gallery.After .lists listed ∧ gallery.After .componentSpreads handed ∧
      c.stats.documents = gallery.definitions.length +
        3 * ((listed.lists.rows.map (·.name)).filter (· ≠ "")).length + c.stats.clones ∧
      c.store.documents.rows = handed.documents.rows ++ cloned ∧
      cloned.length = c.stats.clones ∧ (cloned.map (·.name)).Nodup ∧
      ∀ stage s, gallery.After stage s → s.Retains c.store := by
  obtain ⟨s₀, s, prepared, analysed, check⟩ :=
    gallerySpelling.exists_of_any gallery_givesFreshNames
  obtain ⟨c, compiled, clean, -⟩ := compile_of_analyse prepared analysed
  obtain ⟨G, handed⟩ := Inlining.handed (handover?_of_analyse prepared analysed rfl)
  simp only [givesFreshNames, Bool.and_eq_true, Bool.not_eq_true', List.isEmpty_eq_false_iff]
    at check
  obtain ⟨⟨⟨⟨done, cloned⟩, brought⟩, -⟩, -⟩ := check
  have clones : c.stats.clones ≠ 0 := by
    rw [← handed.finished_eq done] at cloned
    rw [stats_of_clean compiled prepared analysed, stats_clones, handed.made_finished]
    exact fun none => cloned (List.length_eq_zero_iff.mp none)
  obtain ⟨listed, handed, added, after, after', -, count, rows, length, distinct, retained, -⟩ :=
    documents_accounted compiled clean
  exact ⟨c, s, compiled, clean, .of_analyse prepared analysed, brought, clones, listed, handed,
    added, after, after', count, rows, length, distinct, retained⟩

end Project

end GraphDoc
