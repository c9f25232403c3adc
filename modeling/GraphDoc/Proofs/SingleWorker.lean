import GraphDoc.Proofs.Handover
import GraphDoc.Proofs.WorkerPool

/-!
# The order of a single worker

Sources, rules and the documents to inline are handed out by a queue. `Store.loadSources`,
`Rule.runAll` and `Inlining.run` take them in the order in which a single worker gets them, whatever
the order in which the worker and the producer act. That the queue hands out all of them is no
assumption: it does, unless the worker is overtaken.
-/

set_option autoImplicit false

namespace GraphDoc

open WorkQueue System WorkerPool

/-! ## Pools -/

theorem WorkerPool.width_one {α : Type} (items : List α) : width 1 items = 1 := by
  simp only [width]
  omega

theorem WorkerPool.Schedule.finished_eq {α : Type} {items : List α} {actions : List (Action α)}
    {p : WorkerPool α} (h : Schedule (start items 1 false) actions p) (ended : p.Ended) :
    p.system.finished = items ∨ Overtaken (start items 1 false).system actions :=
  (h.pending_eq_zero ended).imp_left fun empty =>
    (((Kept.start items 1).schedule h).1.finished ended.1 empty).2 (width_one items)

theorem Store.loadSources_of_schedule {s : Store} {actions : List (Action (Int × Source))}
    {p : WorkerPool (Int × Source)} (h : Schedule (start s.sources.entries 1 false) actions p)
    (ended : p.Ended) : loadEach loadSource s p.system.finished = s.loadSources ∨
      Overtaken (start s.sources.entries 1 false).system actions :=
  (h.finished_eq ended).imp_left fun order => by rw [order, loadSources]

theorem Rule.runAll_of_schedule {rs : List Rule} {actions : List (Action Rule)}
    {p : WorkerPool Rule} (h : Schedule (start rs 1 false) actions p) (ended : p.Ended)
    (config : Config) (s : Store) :
    runAll p.system.finished config s = runAll rs config s ∨
      Overtaken (start rs 1 false).system actions :=
  (h.finished_eq ended).imp_left fun order => by rw [order]

namespace Inlining

/-! ## The inliner's worker -/

/-- What a task does to the store, with the tasks for its clones as the only follow-up work. -/
def done (w : Inlining) (t : Task) : Inlining := w.settle t (perform w.store w.clones w.null? t)

/-- One worker inlines the tasks that its queue gives it. It has yet to send those in `new`. -/
structure Bench where
  pool : WorkerPool Task
  work : Inlining
  new : List Task

/-- The worker performs a task when it gets it, and is through with it when it has sent a task for
each clone. -/
inductive Serves (b : Bench) : Action Task → Bench → Prop where
  | wait {action : Action Task} {s : System Task} {rest : List Task}
      (step : b.pool.system.step action = some s) (allowed : b.pool.Allowed action rest)
      (none : action.given b.pool.system.queue = []) (holds : ∀ i, action ≠ .worker i .drop) :
      Serves b action ⟨⟨s, rest⟩, b.work, b.new⟩
  | take {i : Nat} {action : WorkerAction Task} {s : System Task} {t : Task}
      (step : b.pool.system.step (.worker i action) = some s)
      (given : action.given b.pool.system.queue = [t]) :
      Serves b (.worker i action)
        ⟨⟨s, b.pool.unsent⟩, { b.work.done t with followUps := [] }, (b.work.done t).followUps⟩
  | follow {i : Nat} {next : Task} {new : List Task} {s : System Task}
      (step : b.pool.system.step (.worker i (.follow next)) = some s)
      (due : b.new = next :: new) :
      Serves b (.worker i (.follow next)) ⟨⟨s, b.pool.unsent⟩, b.work, new⟩
  | drop {i : Nat} {s : System Task} (step : b.pool.system.step (.worker i .drop) = some s)
      (sent : b.new = []) : Serves b (.worker i .drop) ⟨⟨s, b.pool.unsent⟩, b.work, []⟩

inductive Serving : Bench → List (Action Task) → Bench → Prop where
  | done (b : Bench) : Serving b [] b
  | act {b b' b'' : Bench} {action : Action Task} {actions : List (Action Task)}
      (first : Serves b action b') (more : Serving b' actions b'') :
      Serving b (action :: actions) b''

/-- The worker's queue at the start. The producer has the roots. -/
def bench (s : Store) (capacity : Nat) : Bench :=
  ⟨⟨System.start (ofCapacity capacity) 1, (start s).roots⟩, { start s with roots := [] }, []⟩

theorem Serves.step {b b' : Bench} {action : Action Task} (h : Serves b action b') :
    b.pool.system.step action = some b'.pool.system := by
  cases h <;> assumption

theorem Serving.run {b b' : Bench} {actions : List (Action Task)} (h : Serving b actions b') :
    b.pool.system.run actions = some b'.pool.system := by
  induction h with
  | done => rfl
  | act first _ ih => exact run_cons.mpr ⟨_, first.step, ih⟩

/-- The state of the inliner in which the tasks that wait are those on the bench. -/
def Bench.state (b : Bench) (w : Worker Task) : Inlining :=
  { b.work with
    followUps := b.pool.system.queue.followUps ++ w.stage.unsent ++ b.new
    roots := b.pool.system.queue.items ++ b.pool.system.producer.unsent ++ b.pool.unsent }

/-- What is kept while worker `w` works for the inliner: its state is one that a run comes to. -/
structure Attends (s : Store) (b : Bench) (w : Worker Task) : Prop where
  single : b.pool.system.workers = [w]
  reached : ∃ n, (start s).run n = b.state w
  alone : b.work.followUps = []
  sent : w.stage.held = [] → b.new = []
  drained : w.stage = .searching → b.pool.system.queue.followUps = []
  stopped : w.stage = .stopped → b.pool.system.queue.isShutDown = true
  closed : b.pool.system.queue.closed = true → b.pool.unsent = []

/-- What a task adds does not depend on what waits. -/
theorem exists_settle (s : Store) (t : Task) (outcome : Progress × Option Failure) :
    ∃ s' clones null? made new found, ∀ w : Inlining, w.store = s →
      w.settle t outcome = { w with
        store := s', clones := clones, null? := null?, made := w.made + made
        followUps := w.followUps ++ new, diagnostics := w.diagnostics ++ found } := by
  obtain ⟨p, failure?⟩ := outcome
  cases failure? with
  | none =>
    cases committed : s.commit (.ok (p.store, ())) with
    | mk s' result =>
      cases result with
      | ok =>
        refine ⟨s', p.clones, p.null?, p.tasks.length, p.tasks, [], ?_⟩
        rintro w rfl
        unfold settle
        dsimp only
        rw [committed, List.append_nil]
      | error f =>
        refine ⟨s', p.clones, none, 0, [], ?found, ?_⟩
        rotate_left
        rintro w rfl
        unfold settle
        dsimp only
        rw [committed, List.append_nil]
        rfl
  | some f =>
    refine ⟨s, p.clones, none, 0, [], ?reported, ?_⟩
    rotate_left
    rintro w rfl
    unfold settle
    dsimp only [Store.commit]
    rw [List.append_nil]
    rfl

theorem settle_waiting {w : Inlining} (alone : w.followUps = []) (t : Task)
    (outcome : Progress × Option Failure) (followUps roots : List Task) :
    settle { w with followUps := followUps, roots := roots } t outcome =
      { w.settle t outcome with
        followUps := followUps ++ (w.settle t outcome).followUps, roots := roots } := by
  obtain ⟨_, _, _, _, _, _, settles⟩ := exists_settle w.store t outcome
  rw [settles w rfl, settles { w with followUps := followUps, roots := roots } rfl, alone,
    List.nil_append]

/-- The task that comes first is taken from the list it is on. -/
theorem run_done {s : Store} {w : Inlining} (alone : w.followUps = []) {t : Task}
    {followUps roots followUps' roots' : List Task} {n : Nat}
    (reached : (start s).run n = { w with followUps := followUps, roots := roots })
    (first : followUps = t :: followUps' ∧ roots = roots' ∨
      followUps = [] ∧ followUps' = [] ∧ roots = t :: roots') :
    (start s).run (n + 1) =
      { w.done t with followUps := followUps' ++ (w.done t).followUps, roots := roots' } := by
  rw [run_succ, reached]
  obtain ⟨rfl, rfl⟩ | ⟨rfl, rfl, rfl⟩ := first
  · exact settle_waiting alone ..
  · exact settle_waiting alone ..

section

variable {s : Store} {b b' : Bench} {w : Worker Task} {pushed : List Task}

theorem Attends.workerMove (h : Attends s b w) {i : Nat} {action : WorkerAction Task}
    {u : System Task} (move : b.pool.system.Move (.worker i action) u) :
    ∃ q w', WorkerMove b.pool.system.queue w action q w' ∧
      u = { b.pool.system with queue := q, workers := [w'] } := by
  cases move with
  | worker here move =>
    obtain ⟨rfl, rfl, rfl⟩ := eq_of_single (here.symm.trans h.single)
    exact ⟨_, _, move, rfl⟩

theorem Attends.of_held (single : b.pool.system.workers = [w])
    (reached : ∃ n, (start s).run n = b.state w) (alone : b.work.followUps = [])
    (holds : w.stage.held ≠ []) (closed : b.pool.system.queue.closed → b.pool.unsent = []) :
    Attends s b w := by
  refine ⟨single, reached, alone, fun hs => absurd hs holds, fun hs => ?_, fun hs => ?_, closed⟩
  · rw [hs] at holds
    exact absurd rfl holds
  · rw [hs] at holds
    exact absurd rfl holds

/-- Where nothing is handed out, the same tasks wait. -/
theorem Attends.wait (h : Attends s b w) (books : Books pushed b.pool.system)
    {action : Action Task} {u : System Task} {rest : List Task}
    (move : b.pool.system.Move action u) (allowed : b.pool.Allowed action rest)
    (none : action.given b.pool.system.queue = []) (holds : ∀ i, action ≠ .worker i .drop) :
    ∃ w', Attends s ⟨⟨u, rest⟩, b.work, b.new⟩ w' := by
  obtain ⟨plain, pushes, closing⟩ := allowed
  cases action with
  | producer action =>
    obtain ⟨single, ⟨n, reached⟩, alone, sent, drained, stopped, closed⟩ := h
    have lively := books.lively
    obtain ⟨⟨⟨queue, producer, workers⟩, unsent⟩, work, new⟩ := b
    subst pushes
    cases move with
    | producer move =>
      cases move with
      | giveUp a shut => cases lively shut
      | push a =>
        refine ⟨w, single, ⟨n, ?_⟩, alone, sent, drained, stopped, fun hc => ?_⟩
        · rw [reached]
          simp [Bench.state, ProducerStage.unsent, count, Action.pushed, ProducerAction.pushed]
        · cases closed hc
      | send a room =>
        refine ⟨w, single, ⟨n, ?_⟩, alone, sent, drained, stopped, closed⟩
        rw [reached]
        simp [Bench.state, ProducerStage.unsent, WorkQueue.send, Action.pushed,
          ProducerAction.pushed]
      | close =>
        exact ⟨w, single, ⟨n, reached⟩, alone, sent, drained, stopped, fun _ => closing rfl⟩
      | lookEmpty | lookBusy =>
        exact ⟨w, single, ⟨n, reached⟩, alone, sent, drained, stopped, closed⟩
      | shut => exact ⟨w, single, ⟨n, reached⟩, alone, sent, drained, fun _ => rfl, closed⟩
  | worker i action =>
    obtain ⟨q, w', moved, rfl⟩ := h.workerMove move
    obtain rfl : rest = b.pool.unsent := by
      rwa [Action.pushed, WorkerAction.pushed_of_isPlain plain] at pushes
    obtain ⟨_, ⟨n, reached⟩, alone, sent, _, _, closed⟩ := h
    cases moved with
    | popFollowUp first | receiveFollowUp first | receiveItem first =>
      rw [Action.given, WorkerAction.given, first] at none
      cases none
    | leave | follow => cases plain
    | drop => exact absurd rfl (holds i)
    | search empty =>
      exact ⟨_, rfl, ⟨n, reached⟩, alone, sent, fun _ => empty, (by rintro ⟨⟩), closed⟩
    | stop shut =>
      exact ⟨_, rfl, ⟨n, reached⟩, alone, sent, (by rintro ⟨⟩), fun _ => shut, closed⟩
    | sendFollowUp =>
      refine ⟨_, .of_held rfl ⟨n, ?_⟩ alone (List.cons_ne_nil _ _) closed⟩
      rw [reached]
      simp [Bench.state, WorkerStage.unsent, WorkQueue.sendFollowUp]
    | lookLast | lookOther | shut =>
      exact ⟨_, rfl, ⟨n, reached⟩, alone, sent, (by rintro ⟨⟩), (by rintro ⟨⟩), closed⟩

/-- A task that is handed out is the next one. -/
theorem Attends.take (h : Attends s b w) {i : Nat} {action : WorkerAction Task} {t : Task}
    {u : System Task} (move : b.pool.system.Move (.worker i action) u)
    (given : action.given b.pool.system.queue = [t]) :
    ∃ w', Attends s ⟨⟨u, b.pool.unsent⟩, { b.work.done t with followUps := [] },
      (b.work.done t).followUps⟩ w' := by
  obtain ⟨q, w', moved, rfl⟩ := h.workerMove move
  obtain ⟨_, ⟨n, reached⟩, alone, sent, drained, _, closed⟩ := h
  cases moved with
  | @popFollowUp _ rest _ first =>
    rw [WorkerAction.given, first] at given
    cases given
    refine ⟨_, .of_held rfl ⟨n + 1, ?_⟩ rfl (List.cons_ne_nil _ _) closed⟩
    have waits : b.pool.system.queue.followUps ++ [] ++ b.new = t :: rest := by
      rw [List.append_nil, sent rfl, List.append_nil, first]
    refine (run_done alone reached (.inl ⟨waits, rfl⟩)).trans ?_
    simp [Bench.state, WorkerStage.unsent]
  | receiveFollowUp first => cases (drained rfl).symm.trans first
  | @receiveItem _ rest _ first =>
    rw [WorkerAction.given, first] at given
    cases given
    refine ⟨_, .of_held rfl ⟨n + 1, ?_⟩ rfl (List.cons_ne_nil _ _) closed⟩
    have none : b.pool.system.queue.followUps ++ [] ++ b.new = [] := by
      rw [drained rfl, sent rfl]
      rfl
    rw [Bench.state, first] at reached
    refine (run_done alone reached (.inr ⟨none, rfl, rfl⟩)).trans ?_
    simp [Bench.state, WorkerStage.unsent, drained rfl]
  | search empty =>
    rw [WorkerAction.given, empty] at given
    cases given
  | _ => cases given

theorem Attends.follow (h : Attends s b w) {i : Nat} {next : Task} {new : List Task}
    {u : System Task} (move : b.pool.system.Move (.worker i (.follow next)) u)
    (due : b.new = next :: new) : ∃ w', Attends s ⟨⟨u, b.pool.unsent⟩, b.work, new⟩ w' := by
  obtain ⟨q, w', moved, rfl⟩ := h.workerMove move
  obtain ⟨_, ⟨n, reached⟩, alone, _, _, _, closed⟩ := h
  cases moved with
  | follow =>
    refine ⟨_, .of_held rfl ⟨n, ?_⟩ alone (List.cons_ne_nil _ _) closed⟩
    rw [reached]
    simp [Bench.state, WorkerStage.unsent, count, due]

theorem Attends.drop (h : Attends s b w) {i : Nat} {u : System Task}
    (move : b.pool.system.Move (.worker i .drop) u) (sent : b.new = []) :
    ∃ w', Attends s ⟨⟨u, b.pool.unsent⟩, b.work, []⟩ w' := by
  obtain ⟨q, w', moved, rfl⟩ := h.workerMove move
  obtain ⟨_, ⟨n, reached⟩, alone, _, _, _, closed⟩ := h
  rw [Bench.state, sent] at reached
  cases moved with
  | drop =>
    exact ⟨_, rfl, ⟨n, reached⟩, alone, fun _ => rfl, (by rintro ⟨⟩), (by rintro ⟨⟩), closed⟩

theorem Attends.serves {action : Action Task} (h : Attends s b w)
    (books : Books pushed b.pool.system) (serves : Serves b action b') :
    ∃ w', Attends s b' w' := by
  have move := move_of_step books.live serves.step
  cases serves with
  | wait step allowed none holds => exact h.wait books move allowed none holds
  | take step given => exact h.take move given
  | follow step due => exact h.follow move due
  | drop step sent => exact h.drop move sent

theorem Attends.serving {actions : List (Action Task)} (h : Attends s b w)
    (books : Books pushed b.pool.system) (serving : Serving b actions b') :
    ∃ w', Attends s b' w' := by
  induction serving generalizing w pushed with
  | done => exact ⟨w, h⟩
  | act first _ ih =>
    obtain ⟨w', h'⟩ := h.serves books first
    exact ih h' (books.move (move_of_step books.live first.step))

end

/-- The work of a single worker, once it has stopped, is that of the inliner, unless the worker was
overtaken. -/
theorem inlineArguments_of_serving {project : Project} {s : Store}
    (h : project.handover? = some s) {capacity : Nat} {actions : List (Action Task)} {b : Bench}
    (serving : Serving (bench s capacity) actions b) (ended : b.pool.Ended) :
    s.inlineArguments = (b.work.store, b.work.made, b.work.diagnostics) ∨
      Overtaken (System.start (ofCapacity capacity) 1) actions := by
  have start : Attends s (bench s capacity) {} :=
    ⟨rfl, ⟨0, rfl⟩, rfl, fun _ => rfl, (by rintro ⟨⟩), (by rintro ⟨⟩), (by rintro ⟨⟩)⟩
  obtain ⟨w, attends⟩ := start.serving (.start capacity 1) serving
  have books := ((Books.start capacity 1).run serving.run).1
  have hw : w ∈ b.pool.system.workers := attends.single ▸ List.mem_singleton_self w
  refine (pending_of_shut serving.run (attends.stopped (ended.2 w hw))).imp_left fun pending => ?_
  have empty := books.unfinished_eq_nil pending
  have closed : b.pool.system.queue.closed := by
    rw [books.closed, ended.1]
    rfl
  obtain ⟨n, reached⟩ := attends.reached
  simp only [unfinished, List.append_eq_nil_iff] at empty
  have idle : b.state w = { b.work with followUps := [], roots := [] } := by
    rw [Bench.state, ended.1, ended.2 w hw, empty.1.1.2, empty.1.2, attends.closed closed,
      attends.sent (by rw [ended.2 w hw]; rfl)]
    rfl
  rw [idle] at reached
  obtain ⟨G, handed⟩ := handed h
  have finished := handed.finished_eq (n := n) (by rw [reached]; rfl)
  refine Prod.ext ?_ (Prod.ext ?_ ?_)
  · rw [inlineArguments_store, finished, reached]
  · rw [inlineArguments_made, finished, reached]
  · rw [handed.inlineArguments_diagnostics, ← handed.ran.fine, finished, reached]

end Inlining

end GraphDoc
