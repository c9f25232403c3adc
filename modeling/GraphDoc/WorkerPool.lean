import GraphDoc.WorkQueue.System

/-!
# Worker pools

A pool applies some work to every item: a producer sends the items through a queue, closes it and
waits for its workers. Work that breaks down takes its worker with it, and the pool reports how many
workers it lost. The agents take turns here, which is one of the orders in which they may act; each
takes the next action of its call if it does not have to wait.
-/

set_option autoImplicit false

namespace GraphDoc

open WorkQueue

structure WorkerPool (α : Type) where
  system : System α
  unsent : List α
deriving DecidableEq, Inhabited

namespace WorkerPool

variable {α β : Type}

/-- No more workers than items, and at least one. -/
def width (wanted : Nat) (items : List α) : Nat := max 1 (min wanted (max 1 items.length))

def start (items : List α) (wanted : Nat) (cancelled : Bool) : WorkerPool α :=
  let workers := width wanted items
  let queue : WorkQueue α := { WorkQueue.ofCapacity (workers * 2) with isCancelled := cancelled }
  ⟨.start queue workers, items⟩

/-- What the producer does next and what it has left to send then. Once an item is refused it sends
no more. -/
def producerTurn (p : WorkerPool α) : Option (ProducerAction α × List α) :=
  match p.system.producer, p.unsent with
  | .idle, a :: rest => some (.push a, if p.system.queue.isCancelled then [] else rest)
  | .idle, [] => some (.close, [])
  | .sending _, rest =>
    if p.system.queue.hasRoom then some (.send, rest)
    else if p.system.queue.isShutDown then some (.giveUp, [])
    else none
  | .marked, rest => some (.look, rest)
  | .shutting, rest => some (.shut, rest)
  | .done, _ => none

def isBroken (work : α → Option β) (w : Worker α) : Bool :=
  w.finished.any fun a => (work a).isNone

def workerTurn (work : α → Option β) (q : WorkQueue α) (w : Worker α) : Option (WorkerAction α) :=
  match w.stage with
  | .idle => if isBroken work w then some .leave else some .pop
  | .searching =>
    if !q.followUps.isEmpty then some .receiveFollowUp
    else if !q.items.isEmpty then some .receiveItem
    else if q.isShutDown then some .stop
    else none
  | .holding _ => some .drop
  | .following _ _ => some .sendFollowUp
  | .lowered _ => some .look
  | .shutting => some .shut
  | .stopped => none

/-- Takes an action; one that has to wait changes nothing. -/
def act (p : WorkerPool α) (action : Action α) : WorkerPool α :=
  { p with system := (p.system.step action).getD p.system }

def moveProducer (p : WorkerPool α) : WorkerPool α :=
  match p.producerTurn with
  | none => p
  | some (action, rest) => { p.act (.producer action) with unsent := rest }

def moveWorker (work : α → Option β) (p : WorkerPool α) (index : Nat) : WorkerPool α :=
  match p.system.workers[index]? with
  | none => p
  | some w =>
    match workerTurn work p.system.queue w with
    | none => p
    | some action => p.act (.worker index action)

/-- Every agent has a turn. -/
def round (work : α → Option β) (p : WorkerPool α) : WorkerPool α :=
  (List.range p.system.workers.length).foldl (moveWorker work) p.moveProducer

def rounds (work : α → Option β) : Nat → WorkerPool α → WorkerPool α
  | 0, p => p
  | n + 1, p => rounds work n (p.round work)

/-- In every round some agent moves, an item takes at most six actions and an agent at most four
more. -/
def roundsFor (p : WorkerPool α) : Nat :=
  6 * p.unsent.length + 4 * (p.system.workers.length + 1)

structure Breakdown where
  workers : Nat
deriving DecidableEq, Inhabited

def Breakdown.message (b : Breakdown) : String :=
  toString b.workers ++ " compiler workers panicked"

/-- The results, worker by worker; `none` is work that breaks down. -/
def results (work : α → Option β) (p : WorkerPool α) : Except Breakdown (List β) :=
  match (p.system.workers.filter (isBroken work)).length with
  | 0 => .ok ((p.system.workers.flatMap (·.finished)).filterMap work)
  | broken => .error ⟨broken⟩

/-- Runs a pool of `wanted` workers. A cancelled pool does nothing. -/
def run (work : α → Option β) (items : List α) (wanted : Nat) (cancelled : Bool) :
    Except Breakdown (List β) :=
  let p := start items wanted cancelled
  (p.rounds work p.roundsFor).results work

end WorkerPool

end GraphDoc
