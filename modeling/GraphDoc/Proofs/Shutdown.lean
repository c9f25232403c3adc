import GraphDoc.Proofs.WorkQueue

/-!
# Shutting a queue down

The producer marks the queue as closed and then looks at the count; a worker lowers the count and
then looks whether the queue is closed. So whoever comes last sees both, and the queue is shut down
when the producer is done and nothing is left. A queue that is shut down is empty, unless the
producer overtook a worker between its two steps.
-/

set_option autoImplicit false

namespace GraphDoc.WorkQueue

variable {α : Type} {q q' : WorkQueue α}

/-- If nothing is pending after an action on a closed queue, the worker shuts the queue down or will
do that, or nothing was pending before and the worker has nothing to do with it. -/
theorem WorkerMove.ends {w w' : Worker α} {action : WorkerAction α}
    (h : WorkerMove q w action q' w') (closed : q.closed) (empty : q'.pending = 0) :
    (q'.isShutDown ∨ w'.stage = .lowered true ∨ w'.stage = .shutting) ∨
      q.pending = 0 ∧ q'.isShutDown = q.isShutDown ∧ w.stage ≠ .lowered true ∧
        w.stage ≠ .shutting := by
  cases h with
  | follow => cases empty
  | drop => exact .inl (.inr (.inl (by rw [decide_eq_true empty])))
  | lookLast => exact .inl (.inr (.inr rfl))
  | lookOther other =>
    rw [closed, Bool.and_true] at other
    subst other
    exact .inr ⟨empty, rfl, nofun, nofun⟩
  | shut => exact .inl (.inl rfl)
  | _ => exact .inr ⟨empty, rfl, nofun, nofun⟩

namespace System

variable {s s' : System α} {action : Action α} {actions : List (Action α)} {pushed : List α}

/-! ## The last one shuts down -/

/-- Once the producer is done and nothing is pending, the queue is shut down or a worker will do
that. -/
def Watched (s : System α) : Prop :=
  s.producer = .done → s.queue.pending = 0 → s.queue.isShutDown = true ∨
    ∃ w ∈ s.workers, w.stage = .lowered true ∨ w.stage = .shutting

theorem Watched.start (q : WorkQueue α) (workers : Nat) : Watched (start q workers) := nofun

theorem Watched.move (h : Watched s) (books : Books pushed s) (move : s.Move action s') :
    Watched s' := by
  intro done empty
  have hclosed := books.closed
  cases move with
  | producer move =>
    left
    generalize s.producer = stage at *
    cases move with
    | lookBusy busy => exact absurd empty busy
    | shut => rfl
    | _ => cases done
  | @worker before after w w' action q' here move =>
    have wasClosed : s.queue.closed := by
      rw [hclosed, show s.producer = .done from done]
      rfl
    rcases move.ends wasClosed empty with ends | ⟨pending, same, notLowered, notShutting⟩
    · exact ends.imp_right fun hs => ⟨w', List.mem_append_right _ List.mem_cons_self, hs⟩
    · -- The worker has nothing to do with the end: another one is about to bring it.
      refine (h done pending).imp (fun hs => same.trans hs) ?_
      rintro ⟨v, hv, hs⟩
      refine ⟨v, ?_, hs⟩
      rw [here] at hv
      rcases mem_replaced hv with rfl | hv
      · exact (hs.elim notLowered notShutting).elim
      · exact hv

theorem Watched.run (h : Watched s) (books : Books pushed s) (run : s.run actions = some s') :
    Watched s' := by
  induction actions generalizing s pushed with
  | nil =>
    cases run
    exact h
  | cons action rest ih =>
    obtain ⟨t, step, run⟩ := run_cons.mp run
    have move := move_of_step books.live step
    exact ih (h.move books move) (books.move move) run

/-- When the producer is done, both channels are empty and no worker has an item, nothing is
pending. -/
theorem Books.pending_of_empty (h : Books pushed s) (done : s.producer = .done)
    (items : s.queue.items = []) (followUps : s.queue.followUps = [])
    (free : ∀ w ∈ s.workers, w.stage.held = []) : s.queue.pending = 0 := by
  have held : s.held = [] := List.flatMap_eq_nil_iff.mpr free
  have unsent : s.workers.flatMap (·.stage.unsent) = [] := by
    refine List.flatMap_eq_nil_iff.mpr fun w hw => ?_
    have := free w hw
    cases hs : w.stage with
    | following a next =>
      rw [hs] at this
      cases this
    | _ => rfl
  rw [h.pending, unfinished, System.unsent, done, unsent, items, followUps, held]
  rfl

theorem stop_isSome {index : Nat} {w : Worker α} (here : s.workers[index]? = some w)
    (searching : w.stage = .searching) (shut : s.queue.isShutDown) :
    (s.step (.worker index .stop)).isSome := by
  simp [System.step, workerStep, here, searching, shut]

theorem pop_stop_isSome {index : Nat} {w : Worker α} (live : s.queue.isCancelled = false)
    (here : s.workers[index]? = some w) (idle : w.stage = .idle)
    (followUps : s.queue.followUps = []) (shut : s.queue.isShutDown) :
    (s.run [.worker index .pop, .worker index .stop]).isSome := by
  obtain ⟨hlt, rfl⟩ := List.getElem?_eq_some_iff.mp here
  simp [System.run, System.step, workerStep, idle, live, followUps, shut, hlt]

/-! ## Nothing is left behind -/

/-- Somewhere in a run the producer closes the queue, with items pending again, before a worker that
lowered the count to zero has looked whether it is closed. -/
def Overtaken (s : System α) (actions : List (Action α)) : Prop :=
  ∃ before after t, actions = before ++ .producer .close :: after ∧ s.run before = some t ∧
    t.queue.pending ≠ 0 ∧ ∃ w ∈ t.workers, w.stage = .lowered true

theorem Overtaken.cons (step : s.step action = some s') (h : s'.Overtaken actions) :
    s.Overtaken (action :: actions) := by
  obtain ⟨before, after, t, rfl, run, late⟩ := h
  exact ⟨action :: before, after, t, rfl, run_cons.mpr ⟨s', step, run⟩, late⟩

/-- Unless a worker is overtaken, nothing is pending when the queue is shut down. -/
theorem Emptied.run (h : Emptied s) (books : Books pushed s) (run : s.run actions = some s') :
    Emptied s' ∨ s.Overtaken actions := by
  induction actions generalizing s pushed with
  | nil =>
    cases run
    exact .inl h
  | cons action rest ih =>
    obtain ⟨t, step, run⟩ := run_cons.mp run
    have move := move_of_step books.live step
    by_cases late : action = .producer .close ∧ s.queue.pending ≠ 0 ∧
        ∃ w ∈ s.workers, w.stage = .lowered true
    · obtain ⟨rfl, late⟩ := late
      exact .inr ⟨[], rest, s, rfl, rfl, late⟩
    · have emptied : Emptied t := h.move books move fun hclose busy w hw hs =>
        late ⟨hclose, busy, w, hw, hs⟩
      exact (ih emptied (books.move move) run).imp_right (.cons step)

theorem pending_of_shut {capacity workers : Nat}
    (run : (System.start (ofCapacity capacity) workers).run actions = some s)
    (shut : s.queue.isShutDown) :
    s.queue.pending = 0 ∨ Overtaken (System.start (ofCapacity capacity) workers) actions :=
  ((Emptied.start capacity workers).run (.start capacity workers) run).imp_left (·.shut shut)

/-- The end is not missed. In whatever order the agents act: if the producer has closed the queue,
both channels are empty and no worker has an item or is about to finish one, the queue is shut down,
and all who wait for an item can stop. A queue that is shut down holds no item, unless the producer
closed it, with items pending again, between the two steps of a worker that had lowered the count to
zero. -/
theorem shutdown_not_missed {capacity workers : Nat}
    (run : (System.start (ofCapacity capacity) workers).run actions = some s) :
    (s.producer = .done → s.queue.items = [] → s.queue.followUps = [] →
      (∀ w ∈ s.workers, w.stage.held = [] ∧ w.stage.isFinishing = false) →
      s.queue.isShutDown = true ∧
        ∀ index w, s.workers[index]? = some w →
          (w.stage = .searching → (s.step (.worker index .stop)).isSome = true) ∧
          (w.stage = .idle →
            (s.run [.worker index .pop, .worker index .stop]).isSome = true)) ∧
    (s.queue.isShutDown = true →
      (s.queue.pending = 0 ∧ s.queue.items = [] ∧ s.queue.followUps = [] ∧ s.held = []) ∨
      Overtaken (System.start (ofCapacity capacity) workers) actions) := by
  have books := ((Books.start capacity workers).run run).1
  constructor
  · intro done items followUps free
    have pending := books.pending_of_empty done items followUps fun w hw => (free w hw).1
    have shut : s.queue.isShutDown = true := by
      rcases (Watched.start _ _).run (.start capacity workers) run done pending with
        hs | ⟨w, hw, hs⟩
      · exact hs
      · have := (free w hw).2
        rcases hs with hs | hs <;> rw [hs] at this <;> cases this
    exact ⟨shut, fun index w here => ⟨fun searching => stop_isSome here searching shut,
      fun idle => pop_stop_isSome books.live here idle followUps shut⟩⟩
  · intro shut
    refine (pending_of_shut run shut).imp_left fun pending => ?_
    have none := books.unfinished_eq_nil pending
    simp only [unfinished, List.append_eq_nil_iff] at none
    exact ⟨pending, none.1.1.2, none.1.2, none.2⟩

/-- The producer closes the queue while one worker finishes the only item and another waits. -/
theorem shutdown_not_missed_race : ∃ (actions : List (Action Nat)) (s : System Nat),
    (System.start (ofCapacity 1) 2).run actions = some s ∧ s.queue.isShutDown = true ∧
      (s.step (.worker 1 .stop)).isSome = true := by
  have run : ∃ s, (System.start (ofCapacity 1) 2).run [.producer (.push 1), .producer .send,
      .worker 0 .pop, .worker 0 .receiveItem, .worker 1 .pop, .producer .close, .worker 0 .drop,
      .producer .look, .worker 0 .look, .producer .shut, .worker 0 .shut] = some s ∧
      s.producer = .done ∧ s.queue.items = [] ∧ s.queue.followUps = [] ∧
      (∀ w ∈ s.workers, w.stage.held = [] ∧ w.stage.isFinishing = false) ∧
      s.workers[1]? = some ⟨.searching, []⟩ := ⟨_, rfl, rfl, rfl, rfl, by decide, rfl⟩
  obtain ⟨s, run, done, items, followUps, free, waits⟩ := run
  obtain ⟨shut, released⟩ := (shutdown_not_missed run).1 done items followUps free
  exact ⟨_, s, run, shut, (released 1 _ waits).1 rfl⟩

/-- A queue that is shut down may hold items. A worker that is overtaken shuts it down with an item
in the channel, and follow-up work that is sent to it without an item in hand stays in it. -/
theorem shut_queue_holds_items :
    (∃ (actions : List (Action Nat)) (s : System Nat),
      (System.start (ofCapacity 1) 1).run actions = some s ∧ s.queue.isCancelled = false ∧
        s.queue.isShutDown = true ∧ s.queue.items = [2]) ∧
    ∃ q : WorkQueue Nat, q = (ofCapacity 1).close ∧ q.isShutDown = true ∧
      (q.pushFollowUp 5).isShutDown = true ∧ (q.pushFollowUp 5).followUps = [5] ∧
      (q.pushFollowUp 5).pop?.map (·.2) = some (some 5) := by
  refine ⟨⟨[.producer (.push 1), .producer .send, .worker 0 .pop, .worker 0 .receiveItem,
    .worker 0 .drop, .producer (.push 2), .producer .send, .producer .close, .producer .look,
    .worker 0 .look, .worker 0 .shut], _, rfl, rfl, rfl, rfl⟩, _, rfl, rfl, rfl, rfl, rfl⟩

end System

end GraphDoc.WorkQueue
