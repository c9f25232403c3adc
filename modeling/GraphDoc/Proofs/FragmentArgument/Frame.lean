import GraphDoc.Document.Print
import GraphDoc.Proofs.FragmentArgument.Settling

/-!
# What a run leaves alone

No task is about a template, so a template changes only through a selection that it shares with
another document. Clones share no spread and nothing that has an argument. What remains are the
spreads that a template shares with a root: the fragments of a list operation use the selections of
the document that the list is in.
-/

set_option autoImplicit false

namespace GraphDoc.Inlining

open Store

variable {s s₀ u : Store} {G : Int → Prop} {t : Task} {p p' : Progress} {spread : Int × String}
  {T : Int}

/-- Every spread that `T` shares with one of the roots leads to no template. -/
def Apart (roots : List Int) (T : Int) (s : Store) : Prop :=
  ∀ e ∈ spreads s T, ∀ root ∈ roots, e ∈ spreads s root → s.Settled e.2

/-- The template and the roots are there, and it shares no spread of a template with them. -/
structure Framed (s₀ : Store) (T : Int) (s : Store) : Prop where
  here : s.documents.contains T = true
  roots : ∀ root ∈ rootDocuments s₀, s.documents.contains root = true
  old : T ≤ s₀.documents.issued
  apart : Apart (rootDocuments s₀) T s

theorem Framed.visit (hf : Framed s₀ T p.store) (hv : Visit G t p spread p')
    (h : Held G s₀ p.clones p.null? p.store) (hx : IsSpread p.store spread) :
    Framed s₀ T p'.store := by
  have ha := hv.advances h
  refine { hf with
    here := ha.documents.contains hf.here
    roots := fun root hroot => ha.documents.contains (hf.roots root hroot)
    apart := fun e he root hroot he' => ?_ }
  obtain ⟨name, hm, hname⟩ := hv.spreads h hx hf.here he
  obtain ⟨name', hm', _⟩ := hv.spreads h hx (hf.roots root hroot) he'
  obtain rfl : name = name' := (mem_spreads.mp hm').1.name_eq hm rfl
  have hsettled := hf.apart _ hm root hroot hm'
  rcases hname with ⟨rfl, _⟩ | ⟨heq, hnot, _⟩
  · exact ha.settled h.sound.closed hsettled
  · -- A spread that is renamed is not settled.
    have : name = spread.2 := hx.name_eq hm heq
    exact absurd (this ▸ hsettled) hnot

theorem Framed.selectionTree_visit (hf : Framed s₀ T p.store) (hv : Visit G t p spread p')
    (h : Held G s₀ p.clones p.null? p.store) (hx : IsSpread p.store spread) {q : Placement}
    (hq : q ∈ p.store.placements.rows) (hd : q.document = t.document) (hc : q.child = spread.1)
    (ht : t.document ∈ rootDocuments s₀ ∨ (s₀.documents.issued : Int) < t.document) :
    p'.store.selectionTree T = p.store.selectionTree T := by
  by_cases hsettled : p.store.Settled spread.2
  · cases hv with
    | settled => rfl
    | led found declares => exact absurd (hsettled _ _ found) declares
    | made found declares => exact absurd (hsettled _ _ found) declares
  · refine hv.unmoved h hf.here fun q' hq' hd' hc' => ?_
    have hT : spread ∈ spreads p.store T := mem_spreads.mpr ⟨hx, q', hq', hd', hc'⟩
    rcases ht with hroot | hnew
    · exact hsettled (hf.apart _ hT _ hroot (mem_spreads.mpr ⟨hx, q, hq, hd, hc⟩))
    · -- The spreads of a clone stand nowhere else.
      obtain ⟨row, hrow, hk, _⟩ := hx
      have ho : p.store.isOwned q.child row = true := by simp [Store.isOwned, hk]
      have := h.exclusive q hq (hd ▸ hnew) row (hc ▸ hrow) ho q' hq' (hc'.trans hc.symm)
      have := hf.old
      omega

theorem Performed.frame {clones : List String} {null? : Option Int}
    (hp : Performed G s₀ t s clones null? u p) (hs₀ : s₀.Closed) (h : Held G s₀ clones null? s)
    (due : Due s₀ s t) (hf : Framed s₀ T s)
    (ht : t.document ∈ rootDocuments s₀ ∨ (s₀.documents.issued : Int) < t.document) :
    Framed s₀ T p.store ∧ p.store.selectionTree T = s.selectionTree T := by
  have hdocuments : u.documents = s.documents := by rw [hp.opened.rest]
  have hspreads : ∀ d, spreads u d = spreads s d := fun d => by
    rw [hp.opened.rest]
    rfl
  have ha := hp.opened.advances h.sound
  have framed : Framed s₀ T u := by
    refine { hf with here := hdocuments ▸ hf.here, roots := hdocuments ▸ hf.roots, apart := ?_ }
    intro e he root hroot he'
    rw [hspreads] at he he'
    exact ha.settled h.sound.closed (hf.apart e he root hroot he')
  have opened : u.selectionTree T = s.selectionTree T := by
    by_cases hscope : t.scope = []
    · have hu := hp.substituted
      rw [Inlining.substituted, hscope] at hu
      rw [Except.ok.inj hu]
    · have hnew := due.clone hscope
      have := hf.old
      exact hp.opened.unmoved h.sound h.exclusive (.inr hnew) (by omega)
  refine hp.visits.induction (P := fun _ q => Framed s₀ T q.store ∧
    q.store.selectionTree T = s.selectionTree T) hs₀ hp.start ⟨framed, opened⟩ ?_
  rintro spread rest q q' hw hv ⟨hf, hsame⟩
  obtain ⟨hx, r, hr, hd, hc⟩ := hw.spreads spread List.mem_cons_self
  exact ⟨hf.visit hv hw.held hx, (hf.selectionTree_visit hv hw.held hx hr hd hc ht).trans hsame⟩

/-- The run so far, as the template sees it. -/
structure Unmodified (s₀ : Store) (T : Int) (w : Inlining) : Prop where
  roots : ∀ t ∈ w.roots, t.document ∈ rootDocuments s₀
  framed : Framed s₀ T w.store
  tree : w.store.selectionTree T = s₀.selectionTree T

theorem Unmodified.step {w w₁ : Inlining} (hw : Unmodified s₀ T w)
    (hst : Stepped G s₀ w t w₁ u p) (hs₀ : s₀.Closed) (h : Running G s₀ w) :
    Unmodified s₀ T w.step := by
  have ht : t.document ∈ rootDocuments s₀ ∨ (s₀.documents.issued : Int) < t.document := by
    rcases next?_cases hst.next with ⟨rest, hf, _⟩ | ⟨_, rest, hr, _⟩
    · exact .inr (h.followUps t (hf ▸ List.mem_cons_self)).2
    · exact .inl (hw.roots t (hr ▸ List.mem_cons_self))
  obtain ⟨framed, tree⟩ := hst.performed.frame hs₀ h.held hst.due hw.framed ht
  rw [hst.step]
  refine ⟨fun t' hm => hw.roots t' ?_, framed, tree.trans hw.tree⟩
  rcases next?_cases hst.next with ⟨rest, _, rfl⟩ | ⟨_, rest, hr, rfl⟩
  · exact hm
  · exact hr ▸ List.mem_cons_of_mem _ hm

theorem Handed.unmodified (hs : Handed G s) (hT : s.documents.contains T = true)
    (apart : Apart (rootDocuments s) T s) (n : Nat) :
    Unmodified s T ((start s).run n) := by
  have start : Unmodified s T (start s) := by
    refine ⟨fun t ht => ?_, ⟨hT, fun root hr => ?_, Table.le_issued_of_contains hT, apart⟩,
      rfl⟩
    · obtain ⟨d, hd, rfl⟩ := List.mem_map.mp ht
      exact hd
    · obtain ⟨row, hrow, _⟩ := mem_rootDocuments.mp hr
      exact Table.contains_of_get? hrow
  refine (hs.running.run_induction hs.sound.closed hs.lasting start (fun w hw hP => ?_) n).2
  cases hnext : w.next? with
  | none => rwa [Inlining.step, hnext]
  | some e =>
    obtain ⟨u, p, hst⟩ := hw.stepped hs.sound.closed hs.lasting hnext
    exact hP.step hst hs.sound.closed hw

/-! ## Printed text -/

theorem printDocument_fragment (hs : s.Sound G) {row : DocumentRow} {tree : List SelectionNode}
    (hrow : s.documents.get? T = some row) (hk : row.kind = .fragment)
    (htree : s.selectionTree T = .ok tree) :
    s.printDocument T = .ok ("fragment " ++ row.name ++ " on " ++ row.condition?.getD "" ++
      printDirectives (s.nodes .document T) ++ " \x7b\n" ++ SelectionNode.printAll "  " tree ++
      "\x7d") := by
  simp only [printDocument, hrow, printHead, hk, hs.directiveNodes_eq, htree]
  rfl

/-- A fragment prints the same before and after a run, if each spread that it shares with an
operation or with a fragment without arguments leads to no template. -/
theorem template_keeps_text {project : Project} (h : project.handover? = some s) {row : DocumentRow}
    (hrow : s.documents.get? T = some row) (fragment : row.kind = .fragment)
    (apart : ∀ spread ∈ spreads s T, ∀ root ∈ rootDocuments s, spread ∈ spreads s root →
      ∀ target found, s.findDocument spread.2 .fragment = some (target, found) →
        s.variablesOf target = []) :
    ∃ text, s.printDocument T = .ok text ∧ s.inlineArguments.1.printDocument T = .ok text := by
  obtain ⟨G, hs⟩ := handed h
  have hT := Table.contains_of_get? hrow
  have held := hs.ran.held
  obtain ⟨tree, htree⟩ := hs.sound.selectionTree_ok T
  have same := (hs.unmodified hT apart (fuelFor s)).tree.trans htree
  have hrow' := held.advances.documents.get?_of_get? hrow
  refine ⟨_, printDocument_fragment hs.sound hrow fragment htree, ?_⟩
  rw [inlineArguments_store, ← held.advances.nodes T hT]
  exact printDocument_fragment held.sound hrow' fragment same

/-- The fragment of the sample that hands its argument on prints the same before and after a run. -/
theorem sample_template_keeps_text : ∃ s text, sample.handover? = some s ∧ s.variablesOf 2 ≠ [] ∧
    s.printDocument 2 = .ok text ∧ s.inlineArguments.1.printDocument 2 = .ok text := by
  obtain ⟨s, run⟩ := exists_sampleRun
  obtain ⟨row, hrow, fragment, declares⟩ := run.template
  obtain ⟨text, before, after⟩ := template_keeps_text run.handed hrow fragment
    fun spread hspread root hroot shared => absurd shared (run.apart spread hspread root hroot)
  exact ⟨s, text, run.handed, declares, before, after⟩

/-! ## A template that lends a spread -/

/-- The list in fragment `T` lends its spread of `Pic` to the list operations. -/
def lending : Project where
  schema := "type Query \x7b user: User \x7d
    type User \x7b id: ID friends: [User] avatar(size: Int): String \x7d"
  sources := [{
    filepath := "lending.graphql"
    content := "fragment Pic on User @arguments(n: \x7b type: \"Int\" \x7d) \x7b avatar(size: $n) \x7d
      fragment T on User @arguments(n: \x7b type: \"Int\" \x7d) \x7b
        friends @list(name: \"Friends\") \x7b ...Pic @with(n: 1) \x7d
      \x7d
      query Q \x7b user \x7b ...T @with(n: 5) \x7d \x7d" }]

set_option maxRecDepth 10000 in
def lendingSpelling : Spelling lending := ⟨_, [_], rfl, rfl⟩

/-- After six tasks the inliner is done, and fragment `T` has another text. -/
def changesText (s : Store) : Bool :=
  let w := (start s).run 6
  w.isDone && (s.documents.get? 2).any (·.kind = .fragment) && s.variablesOf 2 != [] &&
  match s.printDocument 2, w.store.printDocument 2 with
  | .ok text, .ok text' => text != text'
  | _, _ => false

set_option maxRecDepth 100000 in
theorem lending_changesText :
    (lendingSpelling.analysis?.any fun e => changesText (lending.rewrite e.2)) = true := by
  decide +kernel

/-- The inliner leads the spread that a template lends to a clone, and the template prints it. -/
theorem lent_spread_changes_template : ∃ c s row text text', lending.compile false = .ok c ∧
    c.diagnostics = [] ∧ lending.handover? = some s ∧ s.documents.get? 2 = some row ∧
    row.kind = .fragment ∧ s.variablesOf 2 ≠ [] ∧ s.printDocument 2 = .ok text ∧
    s.inlineArguments.1.printDocument 2 = .ok text' ∧ text ≠ text' := by
  obtain ⟨s₀, s, prepared, analysed, check⟩ := lendingSpelling.exists_of_any lending_changesText
  obtain ⟨c, compiled, clean, _⟩ := Project.compile_of_analyse prepared analysed
  have handover := Project.handover?_of_analyse prepared analysed rfl
  obtain ⟨G, hs⟩ := handed handover
  simp only [changesText, Bool.and_eq_true, bne_iff_ne] at check
  obtain ⟨⟨⟨done, fragment⟩, declares⟩, prints⟩ := check
  obtain ⟨row, hrow, hkind⟩ := (Option.any_eq_true _ _).mp fragment
  split at prints
  · next text text' htext htext' =>
    refine ⟨c, _, row, text, text', compiled, clean, handover, hrow, of_decide_eq_true hkind,
      declares, htext, ?_, bne_iff_ne.mp prints⟩
    rw [inlineArguments_store, hs.finished_eq done]
    exact htext'
  · cases prints

end GraphDoc.Inlining
