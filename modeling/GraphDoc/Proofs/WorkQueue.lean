import Mathlib.Data.List.Basic
import GraphDoc.WorkQueue.System

/-!
# Items in a work queue

An item that is pushed is with its sender, in one of the channels, with a worker, or finished, and
it is in one of these places only, in whatever order the agents act. The count of the queue is the
number of items that are not finished.
-/

set_option autoImplicit false

namespace GraphDoc.WorkQueue

variable {α : Type} {q q' : WorkQueue α}

/-! ## Moves -/

/-- What the producer can do while nothing is cancelled. -/
inductive ProducerMove (q : WorkQueue α) :
    ProducerStage α → ProducerAction α → WorkQueue α → ProducerStage α → Prop where
  | push (a : α) : ProducerMove q .idle (.push a) q.count (.sending a)
  | send (a : α) (room : q.hasRoom = true) : ProducerMove q (.sending a) .send (q.send a) .idle
  | giveUp (a : α) (shut : q.isShutDown = true) :
      ProducerMove q (.sending a) .giveUp q.uncount .idle
  | close : ProducerMove q .idle .close q.markClosed .marked
  | lookEmpty (empty : q.pending = 0) : ProducerMove q .marked .look q .shutting
  | lookBusy (busy : q.pending ≠ 0) : ProducerMove q .marked .look q .done
  | shut : ProducerMove q .shutting .shut q.shutDown .done

theorem producerMove_of_step {stage stage' : ProducerStage α} {action : ProducerAction α}
    (live : q.isCancelled = false) (h : producerStep q stage action = some (q', stage')) :
    ProducerMove q stage action q' stage' := by
  unfold producerStep at h
  split at h
  · rw [if_neg (Bool.eq_false_iff.mp live)] at h
    cases h
    exact .push _
  · split at h
    · next room =>
      cases h
      exact .send _ room
    · cases h
  · split at h
    · next shut =>
      cases h
      exact .giveUp _ shut
    · cases h
  · cases h
    exact .close
  · cases h
    split
    · next empty => exact .lookEmpty empty
    · next busy => exact .lookBusy busy
  · cases h
    exact .shut
  · cases h

/-- What a worker can do while nothing is cancelled. -/
inductive WorkerMove (q : WorkQueue α) :
    Worker α → WorkerAction α → WorkQueue α → Worker α → Prop where
  | popFollowUp {a : α} {rest done : List α} (first : q.followUps = a :: rest) :
      WorkerMove q ⟨.idle, done⟩ .pop { q with followUps := rest } ⟨.holding a, done⟩
  | search {done : List α} (none : q.followUps = []) :
      WorkerMove q ⟨.idle, done⟩ .pop q ⟨.searching, done⟩
  | receiveFollowUp {a : α} {rest done : List α} (first : q.followUps = a :: rest) :
      WorkerMove q ⟨.searching, done⟩ .receiveFollowUp { q with followUps := rest }
        ⟨.holding a, done⟩
  | receiveItem {a : α} {rest done : List α} (first : q.items = a :: rest) :
      WorkerMove q ⟨.searching, done⟩ .receiveItem { q with items := rest } ⟨.holding a, done⟩
  | stop {done : List α} (shut : q.isShutDown = true) :
      WorkerMove q ⟨.searching, done⟩ .stop q ⟨.stopped, done⟩
  | leave {done : List α} : WorkerMove q ⟨.idle, done⟩ .leave q ⟨.stopped, done⟩
  | follow {a : α} (next : α) {done : List α} :
      WorkerMove q ⟨.holding a, done⟩ (.follow next) q.count ⟨.following a next, done⟩
  | sendFollowUp {a next : α} {done : List α} :
      WorkerMove q ⟨.following a next, done⟩ .sendFollowUp (q.sendFollowUp next)
        ⟨.holding a, done⟩
  | drop {a : α} {done : List α} : WorkerMove q ⟨.holding a, done⟩ .drop q.uncount
      ⟨.lowered (q.uncount.pending = 0), done ++ [a]⟩
  | lookLast {done : List α} (closed : q.closed = true) :
      WorkerMove q ⟨.lowered true, done⟩ .look q ⟨.shutting, done⟩
  | lookOther {toZero : Bool} {done : List α} (other : (toZero && q.closed) = false) :
      WorkerMove q ⟨.lowered toZero, done⟩ .look q ⟨.idle, done⟩
  | shut {done : List α} : WorkerMove q ⟨.shutting, done⟩ .shut q.shutDown ⟨.idle, done⟩

theorem workerMove_of_step {w w' : Worker α} {action : WorkerAction α}
    (live : q.isCancelled = false) (h : workerStep q w action = some (q', w')) :
    WorkerMove q w action q' w' := by
  obtain ⟨stage, done⟩ := w
  dsimp only [workerStep] at h
  split at h
  · rw [if_neg (Bool.eq_false_iff.mp live)] at h
    split at h
    · next first =>
      cases h
      exact .popFollowUp first
    · next none =>
      cases h
      exact .search none
  · cases h
    exact .leave
  · split at h
    · next first =>
      cases h
      exact .receiveFollowUp first
    · cases h
  · split at h
    · next first =>
      cases h
      exact .receiveItem first
    · cases h
  · split at h
    · next shut =>
      cases h
      exact .stop shut
    · cases h
  · cases h
    exact .follow _
  · cases h
    exact .sendFollowUp
  · cases h
    exact .drop
  · next toZero =>
    cases h
    cases hlast : toZero && q.closed with
    | false => exact .lookOther hlast
    | true =>
      rw [Bool.and_eq_true] at hlast
      rw [hlast.1]
      exact .lookLast hlast.2
  · cases h
    exact .shut
  · cases h

/-! ## Places -/

/-- The item that the producer has counted and not sent yet. -/
def ProducerStage.unsent : ProducerStage α → List α
  | .sending a => [a]
  | _ => []

/-- The follow-up work that a worker has counted and not sent yet. -/
def WorkerStage.unsent : WorkerStage α → List α
  | .following _ next => [next]
  | _ => []

/-- The item that a worker has. -/
def WorkerStage.held : WorkerStage α → List α
  | .holding a => [a]
  | .following a _ => [a]
  | _ => []

/-- The producer has marked the queue as closed. -/
def ProducerStage.hasClosed : ProducerStage α → Bool
  | .idle => false
  | .sending _ => false
  | _ => true

/-- The item that the producer pushes with an action. -/
def ProducerAction.pushed : ProducerAction α → List α
  | .push a => [a]
  | _ => []

/-- The follow-up work that a worker pushes with an action. -/
def WorkerAction.pushed : WorkerAction α → List α
  | .follow next => [next]
  | _ => []

def Action.pushed : Action α → List α
  | .producer action => action.pushed
  | .worker _ action => action.pushed

/-- The items that are pushed in a run, follow-up work included. -/
def pushedIn (actions : List (Action α)) : List α := actions.flatMap Action.pushed

/-- The item that a worker is given with an action. -/
def WorkerAction.given (q : WorkQueue α) : WorkerAction α → List α
  | .pop => q.followUps.take 1
  | .receiveFollowUp => q.followUps.take 1
  | .receiveItem => q.items.take 1
  | _ => []

def Action.given (q : WorkQueue α) : Action α → List α
  | .producer _ => []
  | .worker _ action => action.given q

/-- The worker has lowered the count and goes on to look at the flag. -/
def WorkerStage.isFinishing : WorkerStage α → Bool
  | .lowered _ => true
  | .shutting => true
  | _ => false

section

variable {stage stage' : ProducerStage α} {action : ProducerAction α}

/-- Items go from the producer to its channel, unless it gives up. -/
theorem ProducerMove.places (h : ProducerMove q stage action q' stage')
    (lively : q.isShutDown → stage.unsent = []) :
    (stage'.unsent ++ q'.items).Perm (stage.unsent ++ q.items ++ action.pushed) ∧
      q'.followUps = q.followUps ∧ q'.pending = q.pending + action.pushed.length := by
  cases h with
  | push a => exact ⟨(List.perm_append_singleton a q.items).symm, rfl, rfl⟩
  | send a room =>
    refine ⟨(List.perm_append_singleton a q.items).trans (.of_eq ?_), rfl, rfl⟩
    exact (List.append_nil _).symm
  | giveUp a shut => cases lively shut
  | close | lookEmpty | lookBusy | shut => exact ⟨.of_eq (List.append_nil _).symm, rfl, rfl⟩

theorem ProducerMove.flags (h : ProducerMove q stage action q' stage')
    (closed : q.closed = stage.hasClosed) : q'.isCancelled = q.isCancelled ∧
      q'.closed = stage'.hasClosed ∧ (q.closed → q'.closed) ∧
      (q'.isShutDown → q.isShutDown ∨ stage = .shutting) := by
  cases h <;> simp_all [ProducerStage.hasClosed, count, WorkQueue.send, uncount, markClosed,
    shutDown]

theorem ProducerMove.pending_close (h : ProducerMove q stage .close q' stage') :
    q'.pending = q.pending := by
  cases h
  rfl

/-- How the producer gets to where it shuts the queue down. -/
theorem ProducerMove.stages (h : ProducerMove q stage action q' stage') :
    (stage' = .shutting → q'.pending = 0) ∧
      (q'.closed → q.closed ∨ action = .close) ∧
      (q.isShutDown → q'.isShutDown) := by
  cases h <;> simp_all [count, WorkQueue.send, uncount, markClosed, shutDown]

end

section

variable {w w' : Worker α} {action : WorkerAction α}

theorem WorkerMove.places (h : WorkerMove q w action q' w')
    (counted : w.stage.held.length ≤ q.pending) :
    (w'.stage.unsent ++ q'.items ++ q'.followUps ++ w'.stage.held ++ w'.finished).Perm
      (w.stage.unsent ++ q.items ++ q.followUps ++ w.stage.held ++ w.finished ++ action.pushed) ∧
      q'.pending + w'.finished.length = q.pending + w.finished.length + action.pushed.length := by
  classical
  rw [List.perm_iff_count]
  cases h with
  | popFollowUp first | receiveFollowUp first | receiveItem first =>
    refine ⟨fun x => ?_, rfl⟩
    simp only [WorkerStage.unsent, WorkerStage.held, WorkerAction.pushed, first, List.count_append,
      List.count_cons, List.count_nil]
    omega
  | search | stop | leave | lookLast | lookOther | shut =>
    exact ⟨fun x => congrArg (List.count x) (List.append_nil _).symm, rfl⟩
  | follow next =>
    refine ⟨fun x => ?_, ?_⟩
    · simp only [WorkerStage.unsent, WorkerStage.held, WorkerAction.pushed, count,
        List.count_append, List.count_cons, List.count_nil]
      omega
    · simp only [WorkerAction.pushed, count, List.length_singleton]
      omega
  | sendFollowUp =>
    refine ⟨fun x => ?_, rfl⟩
    simp only [WorkerStage.unsent, WorkerStage.held, WorkerAction.pushed, WorkQueue.sendFollowUp,
      List.count_append, List.count_cons, List.count_nil]
    omega
  | drop =>
    refine ⟨fun x => ?_, ?_⟩
    · simp only [WorkerStage.unsent, WorkerStage.held, WorkerAction.pushed, uncount,
        List.count_append, List.count_cons, List.count_nil]
      omega
    · have positive : 0 < q.pending := counted
      simp only [WorkerAction.pushed, uncount, List.length_append, List.length_singleton,
        List.length_nil]
      omega

theorem WorkerMove.given (h : WorkerMove q w action q' w') :
    (w'.stage.held ++ w'.finished).Perm (w.stage.held ++ w.finished ++ action.given q) := by
  cases h with
  | popFollowUp first | receiveFollowUp first | receiveItem first =>
    simp only [WorkerAction.given, first]
    exact (List.perm_append_singleton ..).symm
  | search none => simp [WorkerStage.held, WorkerAction.given, none]
  | stop | leave | lookLast | lookOther | shut | follow | sendFollowUp =>
    exact .of_eq (List.append_nil _).symm
  | drop =>
    refine (List.perm_append_singleton ..).trans (.of_eq ?_)
    exact (List.append_nil _).symm

theorem WorkerMove.flags (h : WorkerMove q w action q' w') :
    q'.isCancelled = q.isCancelled ∧ q'.closed = q.closed ∧
      (q'.isShutDown → q.isShutDown ∨ w.stage = .shutting) ∧
      (w'.stage = .shutting → q.closed) := by
  cases h <;> simp_all [count, WorkQueue.sendFollowUp, uncount, shutDown]

theorem WorkerMove.stages (h : WorkerMove q w action q' w') :
    (w'.stage = .shutting → w.stage = .lowered true) ∧
      (w'.stage = .lowered true → q'.pending = 0) ∧
      (w'.stage = .stopped → q'.isShutDown ∨ action = .leave) ∧
      (q.isShutDown → q'.isShutDown) := by
  cases h with
  | drop =>
    exact ⟨nofun, fun hs => of_decide_eq_true (WorkerStage.lowered.inj hs), nofun, fun hs => hs⟩
  | _ => simp_all [count, WorkQueue.sendFollowUp, shutDown]

end

namespace System

/-- What some agent can do. -/
inductive Move (s : System α) : Action α → System α → Prop where
  | producer {action : ProducerAction α} {q : WorkQueue α} {stage : ProducerStage α}
      (move : ProducerMove s.queue s.producer action q stage) :
      Move s (.producer action) { s with queue := q, producer := stage }
  | worker {before after : List (Worker α)} {w w' : Worker α} {action : WorkerAction α}
      {q : WorkQueue α} (here : s.workers = before ++ w :: after)
      (move : WorkerMove s.queue w action q w') :
      Move s (.worker before.length action)
        { s with queue := q, workers := before ++ w' :: after }

variable {s s' : System α} {action : Action α} {actions : List (Action α)} {pushed : List α}

theorem move_of_step (live : s.queue.isCancelled = false) (h : s.step action = some s') :
    s.Move action s' := by
  cases action with
  | producer action =>
    obtain ⟨⟨q, stage⟩, hstep, h⟩ := Option.bind_eq_some_iff.mp h
    cases h
    exact .producer (producerMove_of_step live hstep)
  | worker index action =>
    obtain ⟨w, hw, h⟩ := Option.bind_eq_some_iff.mp h
    obtain ⟨⟨q, w'⟩, hstep, h⟩ := Option.bind_eq_some_iff.mp h
    cases h
    obtain ⟨hlt, rfl⟩ := List.getElem?_eq_some_iff.mp hw
    have here : s.workers =
        s.workers.take index ++ s.workers[index] :: s.workers.drop (index + 1) := by
      rw [← List.drop_eq_getElem_cons hlt, List.take_append_drop]
    have length : (s.workers.take index).length = index := by
      rw [List.length_take]
      omega
    have := Move.worker here (workerMove_of_step live hstep)
    rw [length] at this
    rw [List.set_eq_take_append_cons_drop, if_pos hlt]
    exact this

theorem mem_replaced {before after : List (Worker α)} {w w' v : Worker α}
    (h : v ∈ before ++ w' :: after) : v = w' ∨ v ∈ before ++ w :: after := by
  simp only [List.mem_append, List.mem_cons] at h ⊢
  tauto

/-! ## Books -/

def unsent (s : System α) : List α :=
  s.producer.unsent ++ s.workers.flatMap (·.stage.unsent)

def held (s : System α) : List α := s.workers.flatMap (·.stage.held)

def finished (s : System α) : List α := s.workers.flatMap (·.finished)

def unfinished (s : System α) : List α :=
  s.unsent ++ s.queue.items ++ s.queue.followUps ++ s.held

/-- The items that workers are given, in order. -/
def handedOut (s : System α) : List (Action α) → List α
  | [] => []
  | action :: rest =>
    action.given s.queue ++ (s.step action).elim [] fun s' => s'.handedOut rest

/-- Each item that was pushed is in one place, and those that are not finished are counted. Nothing
is cancelled, and the queue is shut down only after the producer has closed it. -/
structure Books (pushed : List α) (s : System α) : Prop where
  live : s.queue.isCancelled = false
  places : (s.unfinished ++ s.finished).Perm pushed
  pending : s.queue.pending = s.unfinished.length
  closed : s.queue.closed = s.producer.hasClosed
  shut : s.queue.isShutDown = true → s.queue.closed = true
  shutting : ∀ w ∈ s.workers, w.stage = .shutting → s.queue.closed = true

theorem Books.start (capacity workers : Nat) :
    Books [] (start (ofCapacity capacity) workers : System α) := by
  refine ⟨rfl, ?_, ?_, rfl, nofun, fun w hw hs => ?_⟩
  · simp [unfinished, unsent, held, finished, System.start, ofCapacity, ProducerStage.unsent,
      WorkerStage.unsent, WorkerStage.held]
  · simp [unfinished, unsent, held, System.start, ofCapacity, ProducerStage.unsent,
      WorkerStage.unsent, WorkerStage.held]
  · rw [List.eq_of_mem_replicate hw] at hs
    cases hs

/-- While the producer sends, the queue is not shut down. -/
theorem Books.lively (h : Books pushed s) (shut : s.queue.isShutDown) :
    s.producer.unsent = [] := by
  have closed := h.shut shut
  rw [h.closed] at closed
  cases hp : s.producer with
  | sending a =>
    rw [hp] at closed
    cases closed
  | _ => rfl

/-- What a worker has is counted. -/
theorem Books.counted (h : Books pushed s) {w : Worker α} (hw : w ∈ s.workers) :
    w.stage.held.length ≤ s.queue.pending := by
  have : w.stage.held.length ≤ s.held.length := by
    obtain ⟨l₁, l₂, heq⟩ := List.append_of_mem hw
    simp only [held, heq, List.flatMap_append, List.flatMap_cons, List.length_append]
    omega
  simp only [h.pending, unfinished, List.length_append]
  omega

/-- Every move keeps the books. -/
theorem Books.move (h : Books pushed s) (move : s.Move action s') :
    Books (pushed ++ action.pushed) s' := by
  classical
  have places := fun x => h.places.count_eq x
  have lengths := h.places.length_eq
  have pending := h.pending
  cases move with
  | producer move =>
    obtain ⟨sent, followUps, counted⟩ := move.places h.lively
    obtain ⟨cancelled, closed, mono, shut⟩ := move.flags h.closed
    refine ⟨cancelled.trans h.live, List.perm_iff_count.mpr fun x => ?_, ?_, closed, fun hs => ?_,
      fun w hw hs => mono (h.shutting w hw hs)⟩
    · have := places x
      have := sent.count_eq x
      simp only [unfinished, unsent, held, finished, Action.pushed, followUps,
        List.count_append] at *
      omega
    · have := sent.length_eq
      simp only [unfinished, unsent, held, finished, followUps, List.length_append] at *
      omega
    · rcases shut hs with hs | hs
      · exact mono (h.shut hs)
      · exact mono (by rw [h.closed, hs]; rfl)
  | worker here move =>
    have hw := here ▸ List.mem_append_right _ List.mem_cons_self
    obtain ⟨moved, counted⟩ := move.places (h.counted hw)
    obtain ⟨cancelled, closed, shut, shutting⟩ := move.flags
    refine ⟨cancelled.trans h.live, List.perm_iff_count.mpr fun x => ?_, ?_, closed.trans h.closed,
      fun hs => ?_, fun v hv hs => ?_⟩
    · have := places x
      have := moved.count_eq x
      simp only [unfinished, unsent, held, finished, here, Action.pushed, List.flatMap_append,
        List.flatMap_cons, List.count_append] at *
      omega
    · have := moved.length_eq
      simp only [unfinished, unsent, held, finished, here, List.flatMap_append, List.flatMap_cons,
        List.length_append] at *
      omega
    · rw [closed]
      exact (shut hs).elim h.shut (h.shutting _ hw)
    · rw [closed]
      rcases mem_replaced (w := _) hv with rfl | hv
      · exact shutting hs
      · exact h.shutting v (here ▸ hv) hs

theorem Move.handedOut (move : s.Move action s') :
    (s'.held ++ s'.finished).Perm (s.held ++ s.finished ++ action.given s.queue) := by
  classical
  cases move with
  | producer move => exact .of_eq (List.append_nil _).symm
  | worker here move =>
    refine List.perm_iff_count.mpr fun x => ?_
    have := move.given.count_eq x
    simp only [held, finished, here, Action.given, List.flatMap_append, List.flatMap_cons,
      List.count_append] at *
    omega

theorem run_cons {rest : List (Action α)} :
    s.run (action :: rest) = some s' ↔ ∃ t, s.step action = some t ∧ t.run rest = some s' :=
  Option.bind_eq_some_iff

/-- The books are kept in every run. -/
theorem Books.run (h : Books pushed s) (run : s.run actions = some s') :
    Books (pushed ++ pushedIn actions) s' ∧
      (s'.held ++ s'.finished).Perm (s.held ++ s.finished ++ s.handedOut actions) := by
  induction actions generalizing s pushed with
  | nil =>
    cases run
    rw [pushedIn, List.flatMap_nil, List.append_nil]
    exact ⟨h, .of_eq (List.append_nil _).symm⟩
  | cons action rest ih =>
    obtain ⟨t, step, run⟩ := run_cons.mp run
    have move := move_of_step h.live step
    obtain ⟨books, handed⟩ := ih (h.move move) run
    rw [List.append_assoc] at books
    refine ⟨books, handed.trans ?_⟩
    rw [System.handedOut, step, Option.elim_some, ← List.append_assoc]
    exact move.handedOut.append_right _

/-- From the start on, what was handed out and what still waits are together what was pushed. -/
theorem handedOut_perm {capacity workers : Nat}
    (run : (System.start (ofCapacity capacity) workers).run actions = some s) :
    ((System.start (ofCapacity capacity) workers).handedOut actions ++
      (s.unsent ++ s.queue.items ++ s.queue.followUps)).Perm (pushedIn actions) := by
  obtain ⟨books, handed⟩ := (Books.start capacity workers).run run
  have none : ∀ g : Worker α → List α, g {} = [] →
      (System.start (ofCapacity capacity) workers : System α).workers.flatMap g = [] :=
    fun g hg => List.flatMap_eq_nil_iff.mpr fun w hw => List.eq_of_mem_replicate hw ▸ hg
  rw [held.eq_1 (System.start _ _), finished.eq_1 (System.start _ _), none _ rfl,
    none _ rfl] at handed
  have places := books.places
  rw [unfinished, List.append_assoc] at places
  exact (List.perm_append_comm.trans (handed.symm.append_left _)).trans places

/-! ## Shutting down -/

theorem Books.pending_eq_zero (h : Books pushed s) (move : s.Move action s')
    (closed : s.queue.closed) (empty : s.queue.pending = 0) : s'.queue.pending = 0 := by
  cases move with
  | producer move =>
    rw [h.closed] at closed
    cases hp : s.producer <;> rw [hp] at closed move <;> cases closed <;> cases move <;>
      exact empty
  | worker here move =>
    have counted := h.counted (here ▸ List.mem_append_right _ List.mem_cons_self)
    rw [empty] at counted
    cases move with
    | follow next => cases counted
    | drop => cases counted
    | _ => exact empty

/-- Nothing is pending when the queue is shut down, and neither when some agent is about to do
that. -/
structure Emptied (s : System α) : Prop where
  shut : s.queue.isShutDown = true → s.queue.pending = 0
  producer : s.producer = .shutting → s.queue.pending = 0
  shutting : ∀ w ∈ s.workers, w.stage = .shutting → s.queue.pending = 0
  lowered : ∀ w ∈ s.workers, w.stage = .lowered true → s.queue.closed = true →
    s.queue.pending = 0

theorem Emptied.start (capacity workers : Nat) :
    Emptied (start (ofCapacity capacity) workers : System α) := by
  have idle : ∀ w ∈ List.replicate workers ({} : Worker α), w.stage = .idle := fun w hw => by
    rw [List.eq_of_mem_replicate hw]
  refine ⟨nofun, nofun, fun w hw hs => ?_, fun w hw hs => ?_⟩ <;>
    · rw [idle w hw] at hs
      cases hs

/-- A move keeps this, unless the producer closes the queue while something is pending again and a
worker that lowered the count to zero has not looked yet. -/
theorem Emptied.move (h : Emptied s) (books : Books pushed s) (move : s.Move action s')
    (punctual : action = .producer .close → s.queue.pending ≠ 0 →
      ∀ w ∈ s.workers, w.stage ≠ .lowered true) : Emptied s' := by
  have still := books.pending_eq_zero move
  have wasClosed : s.producer = .shutting → s.queue.closed := fun hs => by
    rw [books.closed, hs]
    rfl
  cases move with
  | producer move =>
    obtain ⟨_, _, _, shut⟩ := move.flags books.closed
    obtain ⟨looked, closes, _⟩ := move.stages
    refine ⟨fun hs => ?_, looked, fun w hw hs => ?_, fun w hw hs hclosed => ?_⟩
    · rcases shut hs with hs | hs
      · exact still (books.shut hs) (h.shut hs)
      · exact still (wasClosed hs) (h.producer hs)
    · exact still (books.shutting w hw hs) (h.shutting w hw hs)
    · rcases closes hclosed with hclosed | rfl
      · exact still hclosed (h.lowered w hw hs hclosed)
      · rw [move.pending_close]
        by_contra busy
        exact punctual rfl busy w hw hs
  | worker here move =>
    have hw := here ▸ List.mem_append_right _ List.mem_cons_self
    obtain ⟨_, closed, shut, _⟩ := move.flags
    obtain ⟨looked, dropped, _, _⟩ := move.stages
    refine ⟨fun hs => ?_, fun hs => still (wasClosed hs) (h.producer hs), fun v hv hs => ?_,
      fun v hv hs hclosed => ?_⟩
    · rcases shut hs with hs | hs
      · exact still (books.shut hs) (h.shut hs)
      · exact still (books.shutting _ hw hs) (h.shutting _ hw hs)
    · rcases mem_replaced hv with rfl | hv
      · have hclosed := move.flags.2.2.2 hs
        exact still hclosed (h.lowered _ hw (looked hs) hclosed)
      · exact still (books.shutting v (here ▸ hv) hs) (h.shutting v (here ▸ hv) hs)
    · rcases mem_replaced hv with rfl | hv
      · exact dropped hs
      · rw [closed] at hclosed
        exact still hclosed (h.lowered v (here ▸ hv) hs hclosed)

/-- The count is never lowered below zero. -/
theorem Books.pending_drop (h : Books pushed s) {index : Nat}
    (step : s.step (.worker index .drop) = some s') :
    s'.queue.pending + 1 = s.queue.pending := by
  cases move_of_step h.live step with
  | worker here move =>
    have counted := h.counted (here ▸ List.mem_append_right _ List.mem_cons_self)
    cases move with
    | drop => exact Nat.sub_add_cancel counted

/-- The producer never has to give up. -/
theorem Books.giveUp_eq_none (h : Books pushed s) : s.step (.producer .giveUp) = none := by
  cases step : s.step (.producer .giveUp) with
  | none => rfl
  | some s' =>
    have lively := h.lively
    cases move_of_step h.live step with
    | producer move =>
      generalize s.producer = stage at *
      cases move with
      | giveUp a shut => cases lively shut

/-- A worker stops only when the queue is shut down. -/
theorem shut_of_stop {index : Nat} (live : s.queue.isCancelled = false)
    (step : s.step (.worker index .stop) = some s') : s.queue.isShutDown := by
  cases move_of_step live step with
  | worker _ move =>
    cases move with
    | stop shut => exact shut

theorem Books.unfinished_eq_nil (h : Books pushed s) (empty : s.queue.pending = 0) :
    s.unfinished = [] :=
  List.length_eq_zero_iff.mp (h.pending.symm.trans empty)

/-- When nothing is pending, everything is finished. -/
theorem Books.finished_perm (h : Books pushed s) (empty : s.queue.pending = 0) :
    s.finished.Perm pushed := by
  have places := h.places
  rwa [h.unfinished_eq_nil empty, List.nil_append] at places

/-! ## One worker -/

theorem eq_of_single {before after : List (Worker α)} {v w : Worker α}
    (h : before ++ v :: after = [w]) : before = [] ∧ v = w ∧ after = [] := by
  cases before with
  | nil => exact ⟨rfl, List.cons.inj h⟩
  | cons u rest => simp at h

/-- A single worker without follow-up work takes the items in the order in which they came. -/
structure Orderly (pushed : List α) (s : System α) : Prop where
  none : s.queue.followUps = []
  single : ∃ w, s.workers = [w] ∧ w.stage.unsent = [] ∧
    w.finished ++ w.stage.held ++ s.queue.items ++ s.producer.unsent = pushed

theorem Orderly.move (h : Orderly pushed s) (books : Books pushed s) (move : s.Move action s')
    (plain : ∀ i next, action ≠ .worker i (.follow next)) :
    Orderly (pushed ++ action.pushed) s' := by
  obtain ⟨none, w, hw, unsent, order⟩ := h
  have lively := books.lively
  cases move with
  | producer move =>
    subst order
    generalize s.producer = stage at *
    cases move with
    | giveUp a shut => cases lively shut
    | push | send | close | lookEmpty | lookBusy | shut =>
      refine ⟨none, w, hw, unsent, ?_⟩
      simp [count, WorkQueue.send, markClosed, shutDown, ProducerStage.unsent, Action.pushed,
        ProducerAction.pushed]
  | @worker before after w₀ w' action q' here move =>
    obtain ⟨rfl, rfl, rfl⟩ := eq_of_single (here.symm.trans hw)
    subst order
    cases move with
    | follow next => exact absurd rfl (plain 0 next)
    | sendFollowUp => cases unsent
    | popFollowUp first | receiveFollowUp first => cases none.symm.trans first
    | receiveItem first =>
      refine ⟨none, _, rfl, rfl, ?_⟩
      simp [first, WorkerStage.held, Action.pushed, WorkerAction.pushed]
    | search | stop | leave | drop | lookLast | lookOther | shut =>
      refine ⟨none, _, rfl, rfl, ?_⟩
      simp [WorkerStage.held, uncount, shutDown, Action.pushed, WorkerAction.pushed]

theorem Orderly.finished_eq (h : Orderly pushed s) (empty : s.unfinished = []) :
    s.finished = pushed := by
  obtain ⟨_, w, hw, _, order⟩ := h
  simp only [unfinished, unsent, held, hw, List.append_eq_nil_iff, List.flatMap_cons,
    List.flatMap_nil] at empty
  obtain ⟨⟨⟨⟨producer, _⟩, items⟩, _⟩, held, _⟩ := empty
  rw [producer, items, held, List.append_nil, List.append_nil, List.append_nil] at order
  rw [finished, hw, List.flatMap_cons, List.flatMap_nil, List.append_nil, order]

end System

end GraphDoc.WorkQueue
