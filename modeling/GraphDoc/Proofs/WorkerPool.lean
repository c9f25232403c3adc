import GraphDoc.Proofs.Shutdown
import GraphDoc.WorkerPool

/-!
# Worker pools come to an end

The agents of a pool may act in any order. As long as the pool has something to do, some agent has
an action that it can take, and every action takes the pool nearer to its end. At the end all items
are finished, unless the producer overtook a worker that was about to finish one.
-/

set_option autoImplicit false

namespace GraphDoc

open WorkQueue

namespace WorkQueue

variable {α : Type} {q q' : WorkQueue α}

/-! ## Weights -/

/-- How many actions the producer still takes, if it pushes no more items. An item that is in the
channel takes four actions of a worker. -/
def ProducerStage.weight : ProducerStage α → Nat
  | .idle => 3
  | .sending _ => 8
  | .marked => 2
  | .shutting => 1
  | .done => 0

/-- How many actions a worker still takes, if it gets no more items. -/
def WorkerStage.weight (closed : Bool) : WorkerStage α → Nat
  | .idle => 2
  | .searching => 1
  | .holding _ => 4
  | .following _ _ => 4
  | .lowered toZero => if toZero && closed then 4 else 3
  | .shutting => 3
  | .stopped => 0

/-- Workers of a pool send no follow-up work, and leave only when work breaks down. -/
def WorkerAction.isPlain : WorkerAction α → Bool
  | .follow _ => false
  | .leave => false
  | _ => true

def Action.isPlain : Action α → Bool
  | .producer _ => true
  | .worker _ action => action.isPlain

theorem WorkerAction.pushed_of_isPlain {action : WorkerAction α} (plain : action.isPlain) :
    action.pushed = [] := by
  cases action with
  | follow => cases plain
  | _ => rfl

/-- One worker may still find that it has finished the last item. -/
def spare (q : WorkQueue α) : Nat := if q.closed && q.pending = 0 then 0 else 1

theorem spare_le_one (q : WorkQueue α) : q.spare ≤ 1 := by
  unfold spare
  split <;> omega

theorem spare_eq_one (h : q.closed → q.pending ≠ 0) : q.spare = 1 := by
  refine if_neg fun hs => ?_
  rw [Bool.and_eq_true, decide_eq_true_eq] at hs
  exact h hs.1 hs.2

theorem WorkerMove.weight {w w' : Worker α} {action : WorkerAction α}
    (h : WorkerMove q w action q' w') (counted : w.stage.held.length ≤ q.pending)
    (none : q.followUps = []) (unsent : w.stage.unsent = []) (plain : action.isPlain) :
    w'.stage.weight q.closed + 4 * q'.items.length + q'.spare + 1 ≤
      w.stage.weight q.closed + 4 * q.items.length + q.spare := by
  cases h with
  | follow => cases plain
  | sendFollowUp => cases unsent
  | leave => cases plain
  | popFollowUp first | receiveFollowUp first => cases none.symm.trans first
  | receiveItem first =>
    simp only [first, WorkerStage.weight, spare, List.length_cons]
    omega
  | search | stop =>
    simp only [WorkerStage.weight]
    omega
  | shut =>
    show 2 + 4 * q.items.length + q.spare + 1 ≤ 3 + 4 * q.items.length + q.spare
    omega
  | drop =>
    -- The spare pays for the worker that finishes the last item after the queue is closed.
    have busy : q.spare = 1 := spare_eq_one fun _ => Nat.ne_of_gt counted
    have last : (WorkerStage.lowered (α := α) (q.uncount.pending = 0)).weight q.closed +
        q.uncount.spare ≤ 4 := by
      cases hc : q.closed <;> by_cases h0 : q.pending - 1 = 0 <;>
        simp [WorkerStage.weight, spare, uncount, hc, h0]
    show (WorkerStage.lowered (q.uncount.pending = 0)).weight q.closed + 4 * q.items.length +
      q.uncount.spare + 1 ≤ 4 + 4 * q.items.length + q.spare
    omega
  | lookLast closed =>
    simp only [WorkerStage.weight, closed, Bool.and_self, ↓reduceIte]
    omega
  | lookOther other =>
    simp only [WorkerStage.weight, other, Bool.false_eq_true, ↓reduceIte]
    omega

theorem WorkerMove.plain {w w' : Worker α} {action : WorkerAction α}
    (h : WorkerMove q w action q' w') (none : q.followUps = []) (unsent : w.stage.unsent = [])
    (plain : action.isPlain) :
    q'.followUps = [] ∧ w'.stage.unsent = [] ∧ q'.capacity = q.capacity := by
  cases h with
  | follow => cases plain
  | sendFollowUp => cases unsent
  | popFollowUp first | receiveFollowUp first => cases none.symm.trans first
  | _ => exact ⟨none, rfl, rfl⟩

namespace System

variable {s s' : System α} {action : Action α} {pushed : List α}

/-- How many actions the workers still take. Those that lowered the count to zero may have to shut
the queue down once it is closed. -/
def crewWeight (closed : Bool) : List (Worker α) → Nat
  | [] => 0
  | w :: rest => w.stage.weight closed + (if closed then 0 else 1) + crewWeight closed rest

theorem crewWeight_append (closed : Bool) (workers rest : List (Worker α)) :
    crewWeight closed (workers ++ rest) = crewWeight closed workers + crewWeight closed rest := by
  induction workers with
  | nil => exact (Nat.zero_add _).symm
  | cons w more ih =>
    rw [List.cons_append, crewWeight, crewWeight, ih]
    omega

theorem crewWeight_closed (workers : List (Worker α)) :
    crewWeight true workers ≤ crewWeight false workers := by
  induction workers with
  | nil => exact Nat.le_refl _
  | cons w rest ih =>
    have : w.stage.weight true ≤ w.stage.weight false + 1 := by
      cases w.stage with
      | lowered toZero => cases toZero <;> simp [WorkerStage.weight]
      | _ => exact Nat.le_succ _
    simp only [crewWeight, ↓reduceIte, Bool.false_eq_true]
    omega

/-- How many actions are still to come, if nothing is pushed. -/
def weight (s : System α) : Nat :=
  s.producer.weight + 4 * s.queue.items.length + crewWeight s.queue.closed s.workers +
    s.queue.spare

/-- No worker sends follow-up work, and none stops before the queue is shut down. Once the producer
is done and nothing is pending, the queue is shut down or a worker will do that. -/
structure Tended (s : System α) : Prop where
  none : s.queue.followUps = []
  unsent : ∀ w ∈ s.workers, w.stage.unsent = []
  stopped : ∀ w ∈ s.workers, w.stage = .stopped → s.queue.isShutDown = true
  ends : s.Watched
  room : 0 < s.queue.capacity

theorem Move.weight (move : s.Move action s') (books : Books pushed s) (tended : Tended s)
    (plain : action.isPlain) : s'.weight + 1 ≤ s.weight + 6 * action.pushed.length := by
  have hclosed := books.closed
  have lively := books.lively
  cases move with
  | producer move =>
    simp only [System.weight]
    generalize s.producer = stage at *
    cases move with
    | giveUp a shut => cases lively shut
    | push a =>
      have pays : s.queue.spare = 1 := spare_eq_one fun hc => by cases hclosed.symm.trans hc
      have := spare_le_one s.queue.count
      show 8 + 4 * s.queue.items.length + crewWeight s.queue.closed s.workers +
        s.queue.count.spare + 1 ≤ 3 + 4 * s.queue.items.length +
        crewWeight s.queue.closed s.workers + s.queue.spare + 6 * 1
      omega
    | send a room =>
      show 3 + 4 * (s.queue.items ++ [a]).length + crewWeight s.queue.closed s.workers +
        s.queue.spare + 1 ≤ 8 + 4 * s.queue.items.length +
        crewWeight s.queue.closed s.workers + s.queue.spare + 6 * 0
      rw [List.length_append, List.length_singleton]
      omega
    | close =>
      have pays : s.queue.spare = 1 := spare_eq_one fun hc => by cases hclosed.symm.trans hc
      have := spare_le_one s.queue.markClosed
      have := crewWeight_closed s.workers
      rw [hclosed]
      show 2 + 4 * s.queue.items.length + crewWeight true s.workers +
        s.queue.markClosed.spare + 1 ≤ 3 + 4 * s.queue.items.length +
        crewWeight false s.workers + s.queue.spare + 6 * 0
      omega
    | lookEmpty =>
      show 1 + _ + _ + _ + 1 ≤ 2 + _ + _ + _ + 6 * 0
      omega
    | lookBusy =>
      show 0 + _ + _ + _ + 1 ≤ 2 + _ + _ + _ + 6 * 0
      omega
    | shut =>
      show 0 + 4 * s.queue.items.length + crewWeight s.queue.closed s.workers + s.queue.spare + 1 ≤
        1 + 4 * s.queue.items.length + crewWeight s.queue.closed s.workers + s.queue.spare + 6 * 0
      omega
  | worker here move =>
    have pushes := WorkerAction.pushed_of_isPlain plain
    have hw := here ▸ List.mem_append_right _ List.mem_cons_self
    have nearer := move.weight (books.counted hw) tended.none (tended.unsent _ hw) plain
    have closed := move.flags.2.1
    simp only [System.weight, here, closed, Action.pushed, pushes, crewWeight_append, crewWeight,
      List.length_nil]
    omega

theorem Books.items_eq_nil (h : Books pushed s) (move : s.Move action s')
    (closed : s.queue.closed) (none : s.queue.items = []) : s'.queue.items = [] := by
  cases move with
  | producer move =>
    rw [h.closed] at closed
    generalize s.producer = stage at *
    cases move with
    | send => cases closed
    | _ => exact none
  | worker here move =>
    cases move with
    | receiveItem first => cases none.symm.trans first
    | _ => exact none

theorem Tended.move (h : Tended s) (books : Books pushed s) (move : s.Move action s')
    (plain : action.isPlain) : Tended s' := by
  have ends := h.ends.move books move
  cases move with
  | producer move =>
    have none := (move.places books.lively).2.1.trans h.none
    refine ⟨none, h.unsent, fun w hw hs => move.stages.2.2 (h.stopped w hw hs), ends, ?_⟩
    have := h.room
    cases hp : s.producer <;> rw [hp] at move <;> cases move <;> exact this
  | @worker before after w w' action q' here move =>
    have hw : w ∈ s.workers := here ▸ List.mem_append_right _ List.mem_cons_self
    obtain ⟨none, unsent, capacity⟩ := move.plain h.none (h.unsent w hw) plain
    obtain ⟨_, _, stops, mono⟩ := move.stages
    refine ⟨none, fun v hv => ?_, fun v hv hs => ?_, ends, capacity ▸ h.room⟩
    · rcases mem_replaced hv with rfl | hv
      · exact unsent
      · exact h.unsent v (here ▸ hv)
    · rcases mem_replaced hv with rfl | hv
      · refine (stops hs).resolve_right ?_
        rintro rfl
        cases plain
      · exact mono (h.stopped v (here ▸ hv) hs)

/-- No worker stops before the producer's channel is empty. -/
def Patient (s : System α) : Prop :=
  ∀ w ∈ s.workers, w.stage = .stopped → s.queue.items = []

theorem Patient.move (h : Patient s) (books : Books pushed s) (tended : Tended s)
    (move : s.Move action s') (plain : action.isPlain)
    (last : ∀ i, action = .worker i .stop → s.queue.items = []) : Patient s' := by
  have still := fun (w : Worker α) hw hs =>
    books.items_eq_nil move (books.shut (tended.stopped w hw hs)) (h w hw hs)
  cases move with
  | producer move => exact still
  | @worker before after w w' action q' here move =>
    intro v hv hs
    rcases mem_replaced hv with rfl | hv
    · cases move with
      | stop => exact last _ rfl
      | leave => cases plain
      | _ => cases hs
    · exact still v (here ▸ hv) hs

theorem Move.length_workers (move : s.Move action s') :
    s'.workers.length = s.workers.length := by
  cases move with
  | producer => rfl
  | worker here => simp [here]

theorem Move.closed_or (move : s.Move action s') (closed : s'.queue.closed) :
    s.queue.closed ∨ action = .producer .close := by
  cases move with
  | producer move => exact (move.stages.2.1 closed).imp_right (congrArg _)
  | worker _ move => exact .inl (move.flags.2.1.symm.trans closed)

end System

end WorkQueue

namespace WorkerPool

open System

variable {α β : Type} {work : α → Option β} {items rest : List α} {n wanted : Nat}
  {p : WorkerPool α}

/-! ## Schedules -/

/-- What an agent of a pool may do, and what the producer has left to push then. The producer pushes
its items in their order and closes the queue after the last one. -/
structure Allowed (p : WorkerPool α) (action : Action α) (rest : List α) : Prop where
  plain : action.isPlain = true
  pushes : action.pushed ++ rest = p.unsent
  closing : action = .producer .close → rest = []

/-- The agents of a pool act, in any order. -/
inductive Schedule : WorkerPool α → List (Action α) → WorkerPool α → Prop where
  | done (p : WorkerPool α) : Schedule p [] p
  | act {p q : WorkerPool α} {s : System α} {actions : List (Action α)} {rest : List α}
      (action : Action α) (step : p.system.step action = some s) (allowed : p.Allowed action rest)
      (more : Schedule ⟨s, rest⟩ actions q) : Schedule p (action :: actions) q

theorem Schedule.run {actions : List (Action α)} {q : WorkerPool α}
    (h : Schedule p actions q) : p.system.run actions = some q.system := by
  induction h with
  | done => rfl
  | act action step _ _ ih => exact run_cons.mpr ⟨_, step, ih⟩

theorem Schedule.snoc {actions : List (Action α)} {action : Action α} {q : WorkerPool α}
    {s : System α} (h : Schedule p actions q) (step : q.system.step action = some s)
    (allowed : q.Allowed action rest) : Schedule p (actions ++ [action]) ⟨s, rest⟩ := by
  induction h with
  | done => exact .act action step allowed (.done _)
  | act first step' allowed' _ ih => exact .act first step' allowed' (ih step allowed)

/-- What is kept while `n` workers of a pool work on `items`. -/
structure Kept (items : List α) (n : Nat) (p : WorkerPool α) : Prop where
  books : ∃ pushed, pushed ++ p.unsent = items ∧ Books pushed p.system ∧
    (n = 1 → Orderly pushed p.system)
  tended : Tended p.system
  sent : p.system.queue.closed = true → p.unsent = []
  length : p.system.workers.length = n
  staffed : 0 < n

/-- How many actions are still to come. -/
def weight (p : WorkerPool α) : Nat := 6 * p.unsent.length + p.system.weight

theorem Kept.act (h : Kept items n p) {action : Action α} {s : System α}
    (step : p.system.step action = some s) (allowed : p.Allowed action rest) :
    Kept items n ⟨s, rest⟩ ∧ weight ⟨s, rest⟩ < p.weight := by
  obtain ⟨pushed, total, books, orderly⟩ := h.books
  obtain ⟨plain, pushes, closing⟩ := allowed
  have move := move_of_step books.live step
  have nearer := move.weight books h.tended plain
  refine ⟨⟨⟨pushed ++ action.pushed, ?_, books.move move, fun single => ?_⟩,
    h.tended.move books move plain, fun hclosed => ?_, move.length_workers.trans h.length,
    h.staffed⟩, ?_⟩
  · rw [List.append_assoc, pushes, total]
  · refine (orderly single).move books move fun i next heq => ?_
    subst heq
    cases plain
  · rcases move.closed_or hclosed with hclosed | hclose
    · rw [h.sent hclosed] at pushes
      exact (List.append_eq_nil_iff.mp pushes).2
    · exact closing hclose
  · have := congrArg List.length pushes
    rw [List.length_append] at this
    simp only [weight]
    omega

/-- A schedule comes to an end. -/
theorem Kept.schedule {actions : List (Action α)} {q : WorkerPool α} (h : Kept items n p)
    (schedule : Schedule p actions q) :
    Kept items n q ∧ actions.length + q.weight ≤ p.weight := by
  induction schedule with
  | done => exact ⟨h, Nat.le_of_eq (Nat.zero_add _)⟩
  | act action step allowed _ ih =>
    obtain ⟨kept, nearer⟩ := h.act step allowed
    obtain ⟨kept, bound⟩ := ih kept
    refine ⟨kept, ?_⟩
    rw [List.length_cons]
    omega

/-! ## Turns -/

theorem producerTurn_enabled {pushed : List α} (books : Books pushed p.system)
    {action : ProducerAction α} (turn : p.producerTurn = some (action, rest)) :
    (producerStep p.system.queue p.system.producer action).isSome ∧
      p.Allowed (.producer action) rest := by
  have live := books.live
  have lively := books.lively
  unfold producerTurn at turn
  split at turn
  · next stage unsent =>
    rw [if_neg (Bool.eq_false_iff.mp live)] at turn
    cases turn
    exact ⟨by simp [stage, producerStep, live], rfl, unsent.symm, nofun⟩
  · next stage unsent =>
    cases turn
    exact ⟨by rw [stage]; rfl, rfl, unsent.symm, fun _ => rfl⟩
  · next stage =>
    split at turn
    · next room =>
      cases turn
      exact ⟨by simp [stage, producerStep, room], rfl, rfl, nofun⟩
    · split at turn
      · next shut =>
        rw [stage] at lively
        cases lively shut
      · cases turn
  · next stage =>
    cases turn
    exact ⟨by rw [stage]; rfl, rfl, rfl, nofun⟩
  · next stage =>
    cases turn
    exact ⟨by rw [stage]; rfl, rfl, rfl, nofun⟩
  · cases turn

theorem workerTurn_enabled {q : WorkQueue α} {w : Worker α} {action : WorkerAction α}
    (live : q.isCancelled = false) (unbroken : isBroken work w = false)
    (turn : workerTurn work q w = some action) :
    (workerStep q w action).isSome ∧ action.isPlain ∧ (action = .stop → q.items = []) := by
  obtain ⟨stage, done⟩ := w
  cases stage with
  | idle =>
    simp only [workerTurn, unbroken, Bool.false_eq_true, ↓reduceIte, Option.some.injEq] at turn
    subst turn
    refine ⟨?_, rfl, by simp⟩
    cases hf : q.followUps <;> simp [workerStep, live, hf]
  | searching =>
    cases hf : q.followUps with
    | cons a more =>
      simp only [workerTurn, hf] at turn
      cases turn
      exact ⟨by simp [workerStep, hf], rfl, by simp⟩
    | nil =>
      cases hi : q.items with
      | cons a more =>
        simp only [workerTurn, hf, hi] at turn
        cases turn
        exact ⟨by simp [workerStep, hi], rfl, by simp⟩
      | nil =>
        cases shut : q.isShutDown with
        | false =>
          simp only [workerTurn, hf, hi, shut] at turn
          cases turn
        | true =>
          simp only [workerTurn, hf, hi, shut] at turn
          cases turn
          exact ⟨by simp [workerStep, shut], rfl, fun _ => rfl⟩
  | stopped => cases turn
  | _ =>
    cases turn
    exact ⟨rfl, rfl, by simp⟩

theorem Kept.producer_acts (h : Kept items n p) {action : ProducerAction α}
    (turn : p.producerTurn = some (action, rest)) :
    ∃ s, p.system.step (.producer action) = some s ∧ p.Allowed (.producer action) rest := by
  obtain ⟨pushed, _, books, _⟩ := h.books
  obtain ⟨enabled, allowed⟩ := producerTurn_enabled books turn
  obtain ⟨⟨q, stage⟩, enabled⟩ := Option.isSome_iff_exists.mp enabled
  refine ⟨{ p.system with queue := q, producer := stage }, ?_, allowed⟩
  rw [System.step, enabled]
  rfl

theorem Kept.worker_acts (h : Kept items n p) {index : Nat} {w : Worker α}
    {action : WorkerAction α} (here : p.system.workers[index]? = some w)
    (unbroken : isBroken work w = false)
    (turn : workerTurn work p.system.queue w = some action) :
    ∃ s, p.system.step (.worker index action) = some s ∧
      p.Allowed (.worker index action) p.unsent ∧ (action = .stop → p.system.queue.items = []) := by
  obtain ⟨pushed, _, books, _⟩ := h.books
  obtain ⟨enabled, plain, last⟩ := workerTurn_enabled books.live unbroken turn
  obtain ⟨⟨q, w'⟩, enabled⟩ := Option.isSome_iff_exists.mp enabled
  refine ⟨{ p.system with queue := q, workers := p.system.workers.set index w' }, ?_,
    ⟨plain, ?_, nofun⟩, last⟩
  · simp only [System.step, here, enabled, Option.bind_eq_bind, Option.bind_some, Option.pure_def]
  · rw [Action.pushed, WorkerAction.pushed_of_isPlain plain, List.nil_append]

/-- No agent has a turn that it can take. -/
def Stuck (work : α → Option β) (p : WorkerPool α) : Prop :=
  p.producerTurn = none ∧ ∀ w ∈ p.system.workers, workerTurn work p.system.queue w = none

/-- Unless it is stuck, some agent of a pool can act. -/
theorem Kept.act_of_not_stuck (h : Kept items n p) (unbroken : ∀ w, isBroken work w = false)
    (going : ¬ Stuck work p) :
    ∃ action s rest, p.system.step action = some s ∧ p.Allowed action rest := by
  cases turn : p.producerTurn with
  | some found =>
    obtain ⟨s, step, allowed⟩ := h.producer_acts turn
    exact ⟨_, s, _, step, allowed⟩
  | none =>
    have : ∃ w ∈ p.system.workers, workerTurn work p.system.queue w ≠ none := by
      by_contra all
      push Not at all
      exact going ⟨turn, all⟩
    obtain ⟨w, hw, busy⟩ := this
    obtain ⟨action, turn⟩ := Option.ne_none_iff_exists'.mp busy
    obtain ⟨index, here⟩ := List.getElem?_of_mem hw
    obtain ⟨s, step, allowed, _⟩ := h.worker_acts here (unbroken w) turn
    exact ⟨_, s, _, step, allowed⟩

/-! ## The end -/

/-- The producer is done, and all workers have stopped. -/
def Ended (p : WorkerPool α) : Prop :=
  p.system.producer = .done ∧ ∀ w ∈ p.system.workers, w.stage = .stopped

theorem stage_of_stuck {q : WorkQueue α} {w : Worker α} (stuck : workerTurn work q w = none) :
    w.stage = .stopped ∨ w.stage = .searching ∧ q.items = [] ∧ q.isShutDown = false := by
  obtain ⟨stage, done⟩ := w
  cases stage with
  | stopped => exact .inl rfl
  | searching =>
    right
    cases hf : q.followUps <;> cases hi : q.items <;> cases hs : q.isShutDown <;>
      simp [workerTurn, hf, hi, hs] at stuck ⊢
  | idle =>
    simp only [workerTurn] at stuck
    split at stuck <;> cases stuck
  | _ => cases stuck

/-- Without items in the producer's channel or with a worker, nothing is pending at the end. -/
theorem Kept.pending_eq_zero (h : Kept items n p) (done : p.system.producer = .done)
    (noItems : p.system.queue.items = [])
    (free : ∀ w ∈ p.system.workers, w.stage.held = []) : p.system.queue.pending = 0 := by
  obtain ⟨pushed, _, books, _⟩ := h.books
  exact books.pending_of_empty done noItems h.tended.none free

/-- When nobody has a turn, the producer is done and all workers have stopped. -/
theorem Kept.ended (h : Kept items n p) (stuck : Stuck work p) : p.Ended := by
  obtain ⟨pushed, _, books, _⟩ := h.books
  have stages := fun w hw => stage_of_stuck (stuck.2 w hw)
  obtain ⟨w, hw⟩ := List.exists_mem_of_length_pos (h.length.symm ▸ h.staffed)
  have done : p.system.producer = .done := by
    have none := stuck.1
    have closed := books.closed
    unfold producerTurn at none
    rcases stages w hw with hs | ⟨_, noItems, _⟩
    · rw [books.shut (h.tended.stopped w hw hs)] at closed
      split at none <;> simp_all [ProducerStage.hasClosed]
    · have room : p.system.queue.hasRoom := by
        simp [hasRoom, noItems, h.tended.room]
      split at none <;> simp [room] at none
      assumption
  refine ⟨done, fun v hv => (stages v hv).resolve_right ?_⟩
  rintro ⟨_, noItems, hshut⟩
  have free : ∀ u ∈ p.system.workers, u.stage.held = [] := fun u hu => by
    rcases stages u hu with hs | ⟨hs, _⟩ <;> rw [hs] <;> rfl
  rcases h.tended.ends done (h.pending_eq_zero done noItems free) with hs | ⟨u, hu, hs⟩
  · rw [hshut] at hs
    cases hs
  · rcases stages u hu with hs' | ⟨hs', _⟩ <;> rw [hs'] at hs <;> simp at hs

/-- At the end, if nothing is pending, all items are finished. -/
theorem Kept.finished (h : Kept items n p) (done : p.system.producer = .done)
    (empty : p.system.queue.pending = 0) :
    p.system.finished.Perm items ∧ (n = 1 → p.system.finished = items) := by
  obtain ⟨pushed, total, books, orderly⟩ := h.books
  have closed : p.system.queue.closed := by
    rw [books.closed, done]
    rfl
  rw [h.sent closed, List.append_nil] at total
  subst total
  exact ⟨books.finished_perm empty, fun single =>
    (orderly single).finished_eq (books.unfinished_eq_nil empty)⟩

/-! ## Rounds -/

theorem start_idle {w : Worker α}
    (hw : w ∈ (start items wanted false).system.workers) : w = {} :=
  List.eq_of_mem_replicate hw

theorem Kept.start (items : List α) (wanted : Nat) :
    Kept items (width wanted items) (start items wanted false) := by
  refine ⟨⟨[], rfl, .start _ _, fun single => ⟨rfl, {}, ?_, rfl, rfl⟩⟩,
    ⟨rfl, fun w hw => start_idle hw ▸ rfl, fun w hw hs => ?_, nofun, Nat.le_max_left ..⟩, nofun,
    List.length_replicate .., Nat.le_max_left ..⟩
  · show List.replicate (width wanted items) _ = _
    rw [single]
    rfl
  · rw [start_idle hw] at hs
    cases hs

/-- When the agents take turns, no worker stops before the producer's channel is empty. -/
structure Steady (items : List α) (wanted : Nat) (p : WorkerPool α) : Prop where
  reached : ∃ actions, Schedule (start items wanted false) actions p
  patient : p.system.Patient

theorem Steady.kept (h : Steady items wanted p) : Kept items (width wanted items) p := by
  obtain ⟨actions, schedule⟩ := h.reached
  exact ((Kept.start items wanted).schedule schedule).1

theorem Steady.act (h : Steady items wanted p) {action : Action α} {s : System α}
    (step : p.system.step action = some s) (allowed : p.Allowed action rest)
    (last : ∀ i, action = .worker i .stop → p.system.queue.items = []) :
    Steady items wanted ⟨s, rest⟩ ∧ weight ⟨s, rest⟩ < p.weight := by
  obtain ⟨actions, schedule⟩ := h.reached
  obtain ⟨pushed, _, books, _⟩ := h.kept.books
  have move := move_of_step books.live step
  exact ⟨⟨⟨_, schedule.snoc step allowed⟩,
    h.patient.move books h.kept.tended move allowed.plain last⟩, (h.kept.act step allowed).2⟩

theorem Steady.moveProducer (h : Steady items wanted p) :
    p.producerTurn = none ∧ p.moveProducer = p ∨
      Steady items wanted p.moveProducer ∧ p.moveProducer.weight < p.weight := by
  cases turn : p.producerTurn with
  | none => exact .inl ⟨rfl, by rw [WorkerPool.moveProducer, turn]⟩
  | some found =>
    right
    obtain ⟨s, step, allowed⟩ := h.kept.producer_acts turn
    have : p.moveProducer = ⟨s, found.2⟩ := by
      rw [WorkerPool.moveProducer, turn]
      simp only [WorkerPool.act, step, Option.getD_some]
    rw [this]
    exact h.act step allowed nofun

section

variable (unbroken : ∀ w, isBroken work w = false)
include unbroken

theorem Steady.moveWorker (h : Steady items wanted p) (index : Nat) :
    (∀ w, p.system.workers[index]? = some w → workerTurn work p.system.queue w = none) ∧
        p.moveWorker work index = p ∨
      Steady items wanted (p.moveWorker work index) ∧
        (p.moveWorker work index).weight < p.weight := by
  cases here : p.system.workers[index]? with
  | none => exact .inl ⟨by simp, by rw [WorkerPool.moveWorker, here]⟩
  | some w =>
    cases turn : workerTurn work p.system.queue w with
    | none =>
      refine .inl ⟨fun v hv => ?_, by simp only [WorkerPool.moveWorker, here, turn]⟩
      cases hv
      exact turn
    | some action =>
      right
      obtain ⟨s, step, allowed, last⟩ := h.kept.worker_acts here (unbroken w) turn
      have : p.moveWorker work index = ⟨s, p.unsent⟩ := by
        simp only [WorkerPool.moveWorker, here, turn, WorkerPool.act, step, Option.getD_some]
      rw [this]
      refine h.act step allowed fun i hi => last ?_
      cases hi
      rfl

theorem Steady.foldl_moveWorker (h : Steady items wanted p) (indices : List Nat) :
    (∀ i ∈ indices, ∀ w, p.system.workers[i]? = some w →
        workerTurn work p.system.queue w = none) ∧
        indices.foldl (WorkerPool.moveWorker work) p = p ∨
      Steady items wanted (indices.foldl (WorkerPool.moveWorker work) p) ∧
        (indices.foldl (WorkerPool.moveWorker work) p).weight < p.weight := by
  induction indices generalizing p with
  | nil => exact .inl ⟨nofun, rfl⟩
  | cons index more ih =>
    rw [List.foldl_cons]
    rcases h.moveWorker unbroken index with ⟨none, same⟩ | ⟨kept, nearer⟩
    · rw [same]
      refine (ih h).imp_left fun ⟨others, same⟩ => ⟨fun i hi => ?_, same⟩
      rcases List.mem_cons.mp hi with rfl | hi
      · exact none
      · exact others i hi
    · refine .inr ?_
      rcases ih kept with ⟨_, same⟩ | ⟨kept', nearer'⟩
      · rw [same]
        exact ⟨kept, nearer⟩
      · exact ⟨kept', Nat.lt_trans nearer' nearer⟩

theorem Steady.round (h : Steady items wanted p) :
    Stuck work p ∧ p.round work = p ∨
      Steady items wanted (p.round work) ∧ (p.round work).weight < p.weight := by
  unfold WorkerPool.round
  rcases h.moveProducer with ⟨none, same⟩ | ⟨kept, nearer⟩
  · rw [same]
    refine (h.foldl_moveWorker unbroken _).imp_left fun ⟨others, same⟩ =>
      ⟨⟨none, fun w hw => ?_⟩, same⟩
    obtain ⟨i, hi, rfl⟩ := List.getElem_of_mem hw
    exact others i (List.mem_range.mpr hi) _ (List.getElem?_eq_getElem hi)
  · refine .inr ?_
    rcases kept.foldl_moveWorker unbroken (List.range p.system.workers.length) with
      ⟨_, same⟩ | ⟨kept', nearer'⟩
    · rw [same]
      exact ⟨kept, nearer⟩
    · exact ⟨kept', Nat.lt_trans nearer' nearer⟩

theorem Steady.rounds (h : Steady items wanted p) {m : Nat} (enough : p.weight ≤ m) :
    Steady items wanted (p.rounds work m) ∧ Stuck work (p.rounds work m) := by
  induction m generalizing p with
  | zero =>
    rcases h.round unbroken with ⟨stuck, _⟩ | ⟨_, nearer⟩
    · exact ⟨h, stuck⟩
    · omega
  | succ m ih =>
    rw [WorkerPool.rounds]
    rcases h.round unbroken with ⟨stuck, same⟩ | ⟨kept, nearer⟩
    · have fixed : ∀ k, p.rounds work k = p := fun k => by
        induction k with
        | zero => rfl
        | succ k ih => rw [WorkerPool.rounds, same, ih]
      rw [same, fixed]
      exact ⟨h, stuck⟩
    · exact ih kept (by omega)

end

/-! ## Results -/

theorem weight_start (items : List α) (wanted : Nat) :
    (start items wanted false).weight ≤ (start items wanted false).roundsFor := by
  have crew : ∀ k, crewWeight false (List.replicate k ({} : Worker α)) = 3 * k := fun k => by
    induction k with
    | zero => rfl
    | succ k ih =>
      rw [List.replicate_succ, crewWeight, ih]
      show 2 + 1 + 3 * k = _
      omega
  show 6 * items.length + (3 + 4 * 0 + crewWeight false (List.replicate (width wanted items) {}) +
    1) ≤ 6 * items.length + 4 * ((List.replicate (width wanted items) _).length + 1)
  rw [crew, List.length_replicate]
  omega

theorem Kept.results (h : Kept items n p) (f : α → β) (done : p.system.producer = .done)
    (empty : p.system.queue.pending = 0) :
    ∃ results, p.results (fun a => some (f a)) = .ok results ∧ results.Perm (items.map f) ∧
      (n = 1 → results = items.map f) := by
  have unbroken : p.system.workers.filter (isBroken fun a => some (f a)) = [] :=
    List.filter_eq_nil_iff.mpr fun w _ => by simp [isBroken]
  have results : p.results (fun a => some (f a)) = .ok (p.system.finished.map f) := by
    rw [WorkerPool.results, unbroken]
    exact congrArg Except.ok (congrFun List.filterMap_eq_map' _)
  obtain ⟨perm, order⟩ := h.finished done empty
  exact ⟨_, results, perm.map f, fun single => congrArg (List.map f) (order single)⟩

theorem unbroken_some (f : α → β) (w : Worker α) : isBroken (fun a => some (f a)) w = false := by
  simp [isBroken]

/-- When the agents take turns, they follow one of the schedules, and nothing is lost. -/
theorem run_eq (f : α → β) (items : List α) (wanted : Nat) :
    ∃ actions p results, Schedule (start items wanted false) actions p ∧ p.Ended ∧
      run (fun a => some (f a)) items wanted false = p.results (fun a => some (f a)) ∧
      p.results (fun a => some (f a)) = .ok results ∧ results.Perm (items.map f) ∧
      (width wanted items = 1 → results = items.map f) := by
  have start : Steady items wanted (start items wanted false) :=
    ⟨⟨[], .done _⟩, fun w hw hs => by rw [start_idle hw] at hs; cases hs⟩
  obtain ⟨steady, stuck⟩ := start.rounds (unbroken_some f) (weight_start items wanted)
  obtain ⟨actions, schedule⟩ := steady.reached
  have kept := steady.kept
  obtain ⟨done, stopped⟩ := kept.ended stuck
  obtain ⟨w, hw⟩ := List.exists_mem_of_length_pos (kept.length.symm ▸ kept.staffed)
  have empty := kept.pending_eq_zero done (steady.patient w hw (stopped w hw)) fun v hv => by
    rw [stopped v hv]
    rfl
  obtain ⟨results, ok, perm, order⟩ := kept.results f done empty
  exact ⟨actions, _, results, schedule, ⟨done, stopped⟩, rfl, ok, perm, order⟩

theorem Schedule.pending_eq_zero {actions : List (Action α)}
    (h : Schedule (start items wanted false) actions p) (ended : p.Ended) :
    p.system.queue.pending = 0 ∨ Overtaken (start items wanted false).system actions := by
  have kept := ((Kept.start items wanted).schedule h).1
  obtain ⟨w, hw⟩ := List.exists_mem_of_length_pos (kept.length.symm ▸ kept.staffed)
  exact pending_of_shut h.run (kept.tended.stopped w hw (ended.2 w hw))

/-- Every schedule of a pool comes to an end, and then there are results for all items, unless a
worker was overtaken. -/
theorem Schedule.ends (f : α → β) {actions : List (Action α)}
    (h : Schedule (start items wanted false) actions p) :
    actions.length ≤ (start items wanted false).roundsFor ∧
    (p.Ended ∨ ∃ action s rest, p.system.step action = some s ∧ p.Allowed action rest) ∧
    (p.Ended → (∃ results, p.results (fun a => some (f a)) = .ok results ∧
        results.Perm (items.map f) ∧ (width wanted items = 1 → results = items.map f)) ∨
      Overtaken (start items wanted false).system actions) := by
  obtain ⟨kept, bound⟩ := (Kept.start items wanted).schedule h
  have := weight_start items wanted
  refine ⟨by omega, ?_, fun ended => (h.pending_eq_zero ended).imp_left (kept.results f ended.1)⟩
  by_cases stuck : Stuck (fun a => some (f a)) p
  · exact .inl (kept.ended stuck)
  · exact .inr (kept.act_of_not_stuck (unbroken_some f) stuck)

/-- Nothing is done twice, and nothing is lost unless a worker is overtaken. In whatever order the
agents act, each item that was pushed is with its sender, in a channel, with a worker or finished;
what was handed out and what still waits are together what was pushed; and the count is the number
of items that are not finished. A worker finds nothing left only when the queue is closed and all
that was pushed is finished, unless the producer closed the queue, with items pending again, between
the two steps of a worker that had lowered the count to zero. With that exception, a pool has
results for all items, in their order if there is one worker. Whatever its schedule, it comes to an
end, and in turns, which are one of the schedules, it never loses anything. -/
theorem queue_loses_nothing (f : α → β) :
    (∀ (capacity workers : Nat) (actions : List (Action α)) (s : System α),
      (System.start (ofCapacity capacity) workers).run actions = some s →
      (s.unsent ++ s.queue.items ++ s.queue.followUps ++ s.held ++ s.finished).Perm
        (pushedIn actions) ∧
      ((System.start (ofCapacity capacity) workers).handedOut actions ++
        (s.unsent ++ s.queue.items ++ s.queue.followUps)).Perm (pushedIn actions) ∧
      s.queue.pending =
        (s.unsent ++ s.queue.items ++ s.queue.followUps ++ s.held).length ∧
      (∀ index s', s.step (.worker index .drop) = some s' →
        s'.queue.pending + 1 = s.queue.pending) ∧
      s.step (.producer .giveUp) = none ∧
      ∀ index s', s.step (.worker index .stop) = some s' →
        s.queue.closed = true ∧
          (s.finished.Perm (pushedIn actions) ∨
            Overtaken (System.start (ofCapacity capacity) workers) actions)) ∧
    (∀ (items : List α) (wanted : Nat) (actions : List (Action α)) (p : WorkerPool α),
      Schedule (start items wanted false) actions p →
      actions.length ≤ (start items wanted false).roundsFor ∧
      (p.Ended ∨ ∃ action s rest, p.system.step action = some s ∧ p.Allowed action rest) ∧
      (p.Ended → (∃ results, p.results (fun a => some (f a)) = .ok results ∧
          results.Perm (items.map f) ∧ (width wanted items = 1 → results = items.map f)) ∨
        Overtaken (start items wanted false).system actions)) ∧
    ∀ (items : List α) (wanted : Nat), ∃ actions p results,
      Schedule (start items wanted false) actions p ∧ p.Ended ∧
        run (fun a => some (f a)) items wanted false = p.results (fun a => some (f a)) ∧
        p.results (fun a => some (f a)) = .ok results ∧ results.Perm (items.map f) ∧
        (width wanted items = 1 → results = items.map f) := by
  refine ⟨fun capacity workers actions s run => ?_,
    fun items wanted actions p schedule => schedule.ends f, run_eq f⟩
  have books := ((Books.start capacity workers).run run).1
  refine ⟨books.places, handedOut_perm run, books.pending, fun _ _ step => books.pending_drop step,
    books.giveUp_eq_none, fun index s' step => ?_⟩
  have shut := shut_of_stop books.live step
  exact ⟨books.shut shut, (pending_of_shut run shut).imp_left books.finished_perm⟩

/-- One worker finishes an item and its follow-up work and then finds nothing left, and a pool of
two workers doubles three numbers. -/
theorem queue_loses_nothing_followUp : (∃ (actions : List (Action Nat)) (s s' : System Nat),
    (System.start (ofCapacity 1) 1).run actions = some s ∧ pushedIn actions = [1, 2] ∧
      s.step (.worker 0 .stop) = some s' ∧
      (s.finished.Perm [1, 2] ∨ Overtaken (System.start (ofCapacity 1) 1) actions)) ∧
    ∃ doubled, run (fun a => some (2 * a)) [1, 2, 3] 2 false = .ok doubled ∧
      doubled.Perm [2, 4, 6] := by
  obtain ⟨safe, _, pool⟩ := queue_loses_nothing fun a : Nat => 2 * a
  obtain ⟨_, p, doubled, _, _, same, ok, perm, _⟩ := pool [1, 2, 3] 2
  have run : ∃ s s', (System.start (ofCapacity 1) 1).run [.producer (.push 1), .producer .send,
      .worker 0 .pop, .worker 0 .receiveItem, .worker 0 (.follow 2), .producer .close,
      .producer .look, .worker 0 .sendFollowUp, .worker 0 .drop, .worker 0 .look, .worker 0 .pop,
      .worker 0 .drop, .worker 0 .look, .worker 0 .shut, .worker 0 .pop] = some s ∧
      s.step (.worker 0 .stop) = some s' := ⟨_, _, rfl, rfl⟩
  obtain ⟨s, s', run, stops⟩ := run
  exact ⟨⟨_, s, s', run, rfl, stops, ((safe 1 1 _ s run).2.2.2.2.2 0 s' stops).2⟩, doubled,
    same.trans ok, perm⟩

/-- A pool of one worker may lose an item. The worker lowers the count to zero, the producer pushes
the second item and closes the queue, and the worker finds it closed and shuts it down. It then
stops with the item in the channel. And a queue that is shut down answers that all is done while
follow-up work that came to it is with a worker. -/
theorem overtaken_pool_loses_item :
    (∃ (actions : List (Action Nat)) (p : WorkerPool Nat),
      Schedule (start [1, 2] 1 false) actions p ∧ p.Ended ∧ p.system.queue.items = [2] ∧
        p.results (fun a => some (2 * a)) = .ok [2]) ∧
    ∃ q : WorkQueue Nat, ((ofCapacity 1).close.pushFollowUp 5).pop? = some (q, some 5) ∧
      q.pending = 1 ∧ q.pop?.map (·.2) = some none := by
  refine ⟨⟨_, _, .act (.producer (.push 1)) rfl ⟨rfl, rfl, nofun⟩ <|
    .act (.producer .send) rfl ⟨rfl, rfl, nofun⟩ <|
    .act (.worker 0 .pop) rfl ⟨rfl, rfl, nofun⟩ <|
    .act (.worker 0 .receiveItem) rfl ⟨rfl, rfl, nofun⟩ <|
    .act (.worker 0 .drop) rfl ⟨rfl, rfl, nofun⟩ <|
    .act (.producer (.push 2)) rfl ⟨rfl, rfl, nofun⟩ <|
    .act (.producer .send) rfl ⟨rfl, rfl, nofun⟩ <|
    .act (.producer .close) rfl ⟨rfl, rfl, fun _ => rfl⟩ <|
    .act (.producer .look) rfl ⟨rfl, rfl, nofun⟩ <|
    .act (.worker 0 .look) rfl ⟨rfl, rfl, nofun⟩ <|
    .act (.worker 0 .shut) rfl ⟨rfl, rfl, nofun⟩ <|
    .act (.worker 0 .pop) rfl ⟨rfl, rfl, nofun⟩ <|
    .act (.worker 0 .stop) rfl ⟨rfl, rfl, nofun⟩ (.done _), ⟨rfl, by decide⟩, rfl, rfl⟩,
    _, rfl, rfl, rfl⟩

end WorkerPool

end GraphDoc
