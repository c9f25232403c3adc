/-!
# Work queues

A queue hands items to workers. A producer sends its items through a channel of bounded capacity;
workers send follow-up work through an unbounded one, which is drained first. The queue counts the
items that are queued or being worked on. It shuts down when it is closed and the count is back at
zero, or when the work is cancelled.

Each operation is made of the steps that happen at once. An operation that would have to wait gives
`none`.
-/

set_option autoImplicit false

namespace GraphDoc

structure WorkQueue (α : Type) where
  capacity : Nat
  items : List α := []
  followUps : List α := []
  /-- Items that are queued or being worked on. -/
  pending : Nat := 0
  closed : Bool := false
  isShutDown : Bool := false
  isCancelled : Bool := false
deriving DecidableEq, Inhabited

namespace WorkQueue

variable {α : Type}

/-- A queue has room for at least one item. -/
def ofCapacity (capacity : Nat) : WorkQueue α := { capacity := max 1 capacity }

/-! ## Steps -/

def count (q : WorkQueue α) : WorkQueue α := { q with pending := q.pending + 1 }

def uncount (q : WorkQueue α) : WorkQueue α := { q with pending := q.pending - 1 }

def markClosed (q : WorkQueue α) : WorkQueue α := { q with closed := true }

def shutDown (q : WorkQueue α) : WorkQueue α := { q with isShutDown := true }

def hasRoom (q : WorkQueue α) : Bool := q.items.length < q.capacity

def send (q : WorkQueue α) (a : α) : WorkQueue α := { q with items := q.items ++ [a] }

def sendFollowUp (q : WorkQueue α) (a : α) : WorkQueue α :=
  { q with followUps := q.followUps ++ [a] }

/-- The next item; follow-up work goes first. -/
def take? (q : WorkQueue α) : Option (WorkQueue α × α) :=
  match q.followUps, q.items with
  | a :: rest, _ => some ({ q with followUps := rest }, a)
  | [], a :: rest => some ({ q with items := rest }, a)
  | [], [] => none

/-! ## Operations -/

def finish (q : WorkQueue α) : WorkQueue α :=
  let q := q.uncount
  if q.pending = 0 && q.closed then q.shutDown else q

def push? (q : WorkQueue α) (a : α) : Option (WorkQueue α × Bool) :=
  if q.isCancelled then some (q.shutDown, false)
  else if q.hasRoom then some (q.count.send a, true)
  else if q.isShutDown then some (q.count.finish, false)
  else none

def pushFollowUp (q : WorkQueue α) (a : α) : WorkQueue α := q.count.sendFollowUp a

def pop? (q : WorkQueue α) : Option (WorkQueue α × Option α) :=
  if q.isCancelled then some (q.shutDown, none)
  else match q.take? with
    | some (q, a) => some (q, some a)
    | none => if q.isShutDown then some (q, none) else none

def close (q : WorkQueue α) : WorkQueue α :=
  let q := q.markClosed
  if q.pending = 0 then q.shutDown else q

def cancel (q : WorkQueue α) : WorkQueue α := { q with isCancelled := true }

end WorkQueue

end GraphDoc
