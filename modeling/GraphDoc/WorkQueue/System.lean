import GraphDoc.WorkQueue.Basic

/-!
# Workers on a queue

One producer and any number of workers share a queue. Their calls are not atomic: each is a sequence
of actions, and the actions of different agents may come in any order. A stage says how far an agent
is in its current call. An action that has to wait, or that does not belong to the stage of its
agent, gives `none`.
-/

set_option autoImplicit false

namespace GraphDoc.WorkQueue

/-- Where the producer stands: between calls, with an item that is counted but not sent, after
marking the queue as closed, about to shut it down, or at the end. -/
inductive ProducerStage (α : Type) where
  | idle
  | sending (a : α)
  | marked
  | shutting
  | done
deriving DecidableEq, Inhabited

/-- Where a worker stands: between calls, looking for an item after it found no follow-up work,
with an item, with an item and follow-up work that is counted but not sent, after it lowered the
count, maybe to zero, about to shut the queue down, or at the end. -/
inductive WorkerStage (α : Type) where
  | idle
  | searching
  | holding (a : α)
  | following (a next : α)
  | lowered (toZero : Bool)
  | shutting
  | stopped
deriving DecidableEq, Inhabited

structure Worker (α : Type) where
  stage : WorkerStage α := .idle
  finished : List α := []
deriving DecidableEq, Inhabited

structure System (α : Type) where
  queue : WorkQueue α
  producer : ProducerStage α := .idle
  workers : List (Worker α)
deriving DecidableEq, Inhabited

inductive ProducerAction (α : Type) where
  | push (a : α)
  | send
  | giveUp
  | close
  | look
  | shut
deriving DecidableEq, Inhabited

inductive WorkerAction (α : Type) where
  | pop
  | receiveFollowUp
  | receiveItem
  | stop
  | leave
  | follow (next : α)
  | sendFollowUp
  | drop
  | look
  | shut
deriving DecidableEq, Inhabited

inductive Action (α : Type) where
  | producer (action : ProducerAction α)
  | worker (index : Nat) (action : WorkerAction α)
deriving DecidableEq, Inhabited

variable {α : Type}

def producerStep (q : WorkQueue α) (stage : ProducerStage α) (action : ProducerAction α) :
    Option (WorkQueue α × ProducerStage α) :=
  match stage, action with
  | .idle, .push a =>
    if q.isCancelled then some (q.shutDown, .idle) else some (q.count, .sending a)
  | .sending a, .send => if q.hasRoom then some (q.send a, .idle) else none
  | .sending _, .giveUp => if q.isShutDown then some (q.uncount, .idle) else none
  | .idle, .close => some (q.markClosed, .marked)
  | .marked, .look => some (q, if q.pending = 0 then .shutting else .done)
  | .shutting, .shut => some (q.shutDown, .done)
  | _, _ => none

def workerStep (q : WorkQueue α) (w : Worker α) (action : WorkerAction α) :
    Option (WorkQueue α × Worker α) :=
  match w.stage, action with
  | .idle, .pop =>
    if q.isCancelled then some (q.shutDown, { w with stage := .stopped })
    else match q.followUps with
      | a :: rest => some ({ q with followUps := rest }, { w with stage := .holding a })
      | [] => some (q, { w with stage := .searching })
  | .idle, .leave => some (q, { w with stage := .stopped })
  | .searching, .receiveFollowUp =>
    match q.followUps with
    | a :: rest => some ({ q with followUps := rest }, { w with stage := .holding a })
    | [] => none
  | .searching, .receiveItem =>
    match q.items with
    | a :: rest => some ({ q with items := rest }, { w with stage := .holding a })
    | [] => none
  | .searching, .stop => if q.isShutDown then some (q, { w with stage := .stopped }) else none
  | .holding a, .follow next => some (q.count, { w with stage := .following a next })
  | .following a next, .sendFollowUp =>
    some (q.sendFollowUp next, { w with stage := .holding a })
  | .holding a, .drop =>
    let q := q.uncount
    some (q, ⟨.lowered (q.pending = 0), w.finished ++ [a]⟩)
  | .lowered toZero, .look =>
    some (q, { w with stage := if toZero && q.closed then .shutting else .idle })
  | .shutting, .shut => some (q.shutDown, { w with stage := .idle })
  | _, _ => none

namespace System

def start (q : WorkQueue α) (workers : Nat) : System α where
  queue := q
  workers := List.replicate workers {}

def step (s : System α) : Action α → Option (System α)
  | .producer action => do
    let (q, stage) ← producerStep s.queue s.producer action
    return { s with queue := q, producer := stage }
  | .worker index action => do
    let w ← s.workers[index]?
    let (q, w) ← workerStep s.queue w action
    return { s with queue := q, workers := s.workers.set index w }

def run (s : System α) : List (Action α) → Option (System α)
  | [] => some s
  | action :: rest => do (← s.step action).run rest

end System

end GraphDoc.WorkQueue
