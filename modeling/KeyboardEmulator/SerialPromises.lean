import KeyboardEmulator.SerialReceive

namespace KeyboardEmulator

open BootKeyboard (Byte)
open RingBuffer (Ring next distance)

/-!
# What a client may rely on

`available` and `peek` look at the receive ring, `availableForWrite` at the
transmit ring, while handlers move the other end of each.  Their answers hold
good for the calls that follow, whatever the handlers do meanwhile.
-/

namespace Usart

variable {u after final : Usart} {promised : List Byte} {events : List Event}

/-! ## Reading -/

/-- Through a run in which `end` does not return, promises are kept. -/
theorem RxOk.run?
    {actions : List Action}
    (ok : u.RxOk promised)
    (ran : u.run? actions = some (final, events))
    (noEnd : events.any Event.isEnded = false) :
    ∃ left,
      final.RxOk left ∧
        promised.map returned <+:
          events.filterMap Event.readGave? ++ left.map returned := by
  induction actions generalizing u promised events with
  | nil =>
      cases ran
      exact ⟨promised, ok, List.prefix_refl _⟩
  | cons action rest inductionHypothesis =>
      obtain ⟨middle, first, later, stepped, continued, rfl⟩ :=
        LabelledRun.run?_cons_iff.mp ran
      rw [List.any_append, Bool.or_eq_false_iff] at noEnd
      obtain ⟨between, reached, here⟩ :=
        (Keeps.step? ok stepped).kept noEnd.1
      obtain ⟨left, finally', onward⟩ :=
        inductionHypothesis reached continued noEnd.2
      refine ⟨left, finally', here.trans ?_⟩
      rw [List.filterMap_append, List.append_assoc]
      exact (List.prefix_append_right_inj _).mpr onward

/-- In the client's own code all that is unread is promised. -/
theorem RxOk.all
    (client : u.location = .client) :
    u.RxOk u.unread := by
  refine ⟨List.prefix_refl _, ?_⟩
  rw [client]
  trivial

/-- The calls of `read` that follow return what is unread, oldest first. -/
theorem reads_unread
    {actions : List Action}
    (client : u.location = .client)
    (ran : u.run? actions = some (final, events))
    (noEnd : events.any Event.isEnded = false)
    {n : Nat}
    (within : n ≤ u.unread.length) :
    (events.filterMap Event.readGave?).take n <+:
      (u.unread.take n).map returned := by
  obtain ⟨left, _, kept⟩ := (RxOk.all client).run? ran noEnd
  have first :
      (u.unread.take n).map returned <+:
        events.filterMap Event.readGave? ++ left.map returned :=
    (List.IsPrefix.map _ (List.take_prefix _ _)).trans kept
  have reads :
      (events.filterMap Event.readGave?).take n <+:
        events.filterMap Event.readGave? ++ left.map returned :=
    (List.take_prefix _ _).trans (List.prefix_append _ _)
  refine List.prefix_of_prefix_length_le reads first ?_
  rw [List.length_take, List.length_map, List.length_take]
  omega

/-- Where a method that looks returns, and what its answer says. -/
structure LookedAt (u after : Usart) (emitted : List Event) : Prop where
  available :
    ∀ n, .availableGave n ∈ emitted →
      after.location = .client ∧ n ≤ after.unread.length
  peek :
    ∀ ret, .peekGave ret ∈ emitted → ret ≠ -1 →
      after.location = .client ∧
        ∃ c rest, after.unread = c :: rest ∧ returned c = ret
  availableForWrite :
    ∀ n, .availableForWriteGave n ∈ emitted → u.TxOk →
      after.location = .client ∧ n + after.m.tx.contents.length = 63

/-- `read` and `end` do not look, and no answer comes from elsewhere. -/
theorem lookedAt_of_silent
    {emitted : List Event}
    (silent :
      ∀ event ∈ emitted,
        (∀ n, event ≠ .availableGave n) ∧ (∀ ret, event ≠ .peekGave ret) ∧
          ∀ n, event ≠ .availableForWriteGave n) :
    LookedAt u after emitted :=
  ⟨fun n member => ((silent _ member).1 n rfl).elim,
    fun ret member => ((silent _ member).2.1 ret rfl).elim,
    fun n member => ((silent _ member).2.2 n rfl).elim⟩

theorem lookedAt_of_quiet
    {emitted : List Event}
    (quiet :
      emitted = [] ∨ emitted = [.flushed] ∨ emitted = [.wrote]) :
    LookedAt u after emitted := by
  rcases quiet with rfl | rfl | rfl <;>
    exact lookedAt_of_silent (by simp)

theorem lookedAt_available
    {n : Nat}
    (client : after.location = .client)
    (within : n ≤ after.unread.length) :
    LookedAt u after [.availableGave n] := by
  refine ⟨fun m gave => ?_, nofun, nofun⟩
  rw [List.mem_singleton] at gave
  cases gave
  exact ⟨client, within⟩

theorem lookedAt_peek
    {ret : Int}
    (right :
      ret ≠ -1 →
        after.location = .client ∧
          ∃ c rest, after.unread = c :: rest ∧ returned c = ret) :
    LookedAt u after [.peekGave ret] := by
  refine ⟨nofun, fun other gave => ?_, nofun⟩
  rw [List.mem_singleton] at gave
  cases gave
  exact right

theorem lookedAt_room
    {n : Nat}
    (client : after.location = .client)
    (room : u.TxOk → n + after.m.tx.contents.length = 63) :
    LookedAt u after [.availableForWriteGave n] := by
  refine ⟨nofun, nofun, fun m gave ok => ?_⟩
  rw [List.mem_singleton] at gave
  cases gave
  exact ⟨client, room ok⟩

/-- `availableForWrite` counts the free cells. -/
theorem roomFrom_add_occupancy (ring : Ring Byte 64) :
    roomFrom ring.wr ring.rd + ring.occupancy = 63 := by
  rw [roomFrom, Ring.occupancy, distance]
  split <;> omega

/-- `available` counts up to the head it has read. -/
theorem available_eq_distance (head tail : Fin 64) :
    (64 + head.val - tail.val) % 64 = distance tail head := by
  rw [distance]
  omega

/-- The answer of the method that runs is right when it is given. -/
theorem lookedAt_runStep
    (rx : u.RxOk promised) :
    LookedAt u u.runStep.1 u.runStep.2 := by
  have position := rx.position
  rw [runStep]
  cases here : u.location with
  | availableTail head =>
      rw [here] at position
      refine lookedAt_available rfl ?_
      rw [available_eq_distance]
      exact Nat.le_trans position
        (Nat.le_of_eq (Ring.length_contents u.m.serialRx).symm)
  | peekTail head =>
      simp only [peekStep]
      split
      next =>
        exact lookedAt_peek (fun wanted => absurd rfl wanted)
      next =>
        exact lookedAt_of_quiet (.inl rfl)
  | peekCell index =>
      rw [here] at position
      obtain ⟨rfl, nonempty⟩ := position
      exact lookedAt_peek fun _ =>
        ⟨rfl, _, _, Ring.contents_release nonempty, rfl⟩
  | roomTail head =>
      refine lookedAt_room rfl (fun tx => ?_)
      have target := tx.position
      rw [here] at target
      have headIs : head = u.m.tx.wr := target
      subst headIs
      rw [Ring.length_contents]
      exact roomFrom_add_occupancy u.m.tx
  | flush ending position =>
      exact lookedAt_of_quiet (silent_flushStep u ending position)
  | write c position =>
      exact lookedAt_of_quiet (silent_writeStep u c position)
  | readTail head =>
      refine lookedAt_of_silent ?_
      simp only [readStep]
      split <;> simp
  | endHead tail | readStore c tail =>
      exact lookedAt_of_silent (by simp [endStep, readStep])
  | _ =>
      exact lookedAt_of_quiet (.inl rfl)

/-- Only a method that runs answers. -/
theorem lookedAt_step?
    {action : Action}
    {result : Usart × List Event}
    (rx : u.RxOk promised)
    (stepped : u.step? action = some result) :
    LookedAt u result.1 result.2 := by
  cases step?_inversion stepped with
  | call outside method =>
      refine lookedAt_of_silent ?_
      cases method <;> simp [enter]
  | run inside =>
      exact lookedAt_runStep rx
  | usartReceive enabled rxcie c parityError result handled =>
      refine lookedAt_of_silent ?_
      rw [receiveEvent]
      split <;> simp
  | _ =>
      exact lookedAt_of_silent (by simp)

/-! ## Writing -/

/-- A step queues no more than the client has written. -/
theorem Simulates.queues
    {result : Usart × List Event}
    (simulates : Simulates u result) :
    result.1.m.tx.contents.length + result.1.location.uncommitted.length ≤
      u.m.tx.contents.length + u.location.uncommitted.length +
        (result.2.filterMap Event.writing?).length := by
  obtain ⟨label, pipeStep, accepts, _⟩ := simulates.pipe
  have lengths := congrArg List.length accepts
  have queued := pipeStep.queued_le
  rw [List.length_append, List.length_append] at lengths
  change
    result.1.m.tx.contents.length ≤ u.m.tx.contents.length + _ at queued
  omega

/-- A run queues no more than the client has written. -/
theorem Tracks.queues
    {phase last : Phase}
    {past : List Event}
    {actions : List Action}
    (tracks : Tracks phase past u)
    (orderly : actions.foldlM Phase.next phase = some last)
    (ran : u.run? actions = some (final, events)) :
    final.m.tx.contents.length + final.location.uncommitted.length ≤
      u.m.tx.contents.length + u.location.uncommitted.length +
        (events.filterMap Event.writing?).length := by
  induction actions generalizing phase u past events with
  | nil =>
      cases ran
      exact Nat.le_add_right _ _
  | cons action rest inductionHypothesis =>
      obtain ⟨middle, first, later, stepped, continued, rfl⟩ :=
        LabelledRun.run?_cons_iff.mp ran
      obtain ⟨between, allowed, onward⟩ :=
        Option.bind_eq_some_iff.mp
          ((List.foldlM_cons (m := Option)).symm.trans orderly)
      have quiet := tracks.quiet allowed stepped
      obtain ⟨labels, accounts, _⟩ := tracks.follows.account
      have here :=
        (Simulates.step? tracks.follows.ok accounts quiet stepped).queues
      have rests :=
        inductionHypothesis (tracks.step? allowed stepped) onward continued
      rw [List.filterMap_append, List.length_append]
      simp only at here
      omega

/-- No `write` finds the ring full while there was room for all of them. -/
theorem Tracks.room
    {phase last : Phase}
    {past : List Event}
    {actions : List Action}
    {n : Nat}
    (tracks : Tracks phase past u)
    (client : u.location = .client)
    (free : n + u.m.tx.contents.length = 63)
    (orderly : actions.foldlM Phase.next phase = some last)
    (ran : u.run? actions = some (final, events))
    (written : (events.filterMap Event.writing?).length ≤ n)
    {c : Byte}
    {i : Fin 64}
    (spins : final.location = .write c (.spin i)) :
    i ≠ final.m.tx.rd := by
  have queued := tracks.queues orderly ran
  have target := (tracks.run? orderly ran).follows.ok.position
  rw [spins] at target
  have index : i = next final.m.tx.wr := target.2
  intro waits
  have isFull : final.m.tx.Full := index.symm.trans waits
  have all := Ring.full_iff_occupancy.mp isFull
  have owes : final.location.uncommitted.length = 1 := by
    rw [spins]
    rfl
  have owed : u.location.uncommitted.length = 0 := by
    rw [client]
    rfl
  rw [owes, owed, Ring.length_contents final.m.tx] at queued
  omega

/-! ## Answers -/

/-- What the answers after these actions promise for every run from there. -/
structure Promises
    (made : List Action)
    (after : Usart)
    (emitted : List Event) : Prop where
  /-- the next calls of `read` return that many characters, oldest first -/
  available :
    ∀ n, .availableGave n ∈ emitted →
      n ≤ after.unread.length ∧
        ∀ actions final seen,
          after.run? actions = some (final, seen) →
          seen.any Event.isEnded = false →
            (seen.filterMap Event.readGave?).take n <+:
              (after.unread.take n).map returned
  /-- the next call of `read` returns the same -/
  peek :
    ∀ ret, .peekGave ret ∈ emitted → ret ≠ -1 →
      ∀ actions final seen,
        after.run? actions = some (final, seen) →
        seen.any Event.isEnded = false →
          ∀ first ∈ (seen.filterMap Event.readGave?).head?, first = ret
  /-- an orderly client's next calls of `write`, that many, find room -/
  availableForWrite :
    ∀ n, .availableForWriteGave n ∈ emitted → Orderly made →
      n + after.m.tx.contents.length = 63 ∧
        ∀ actions final seen,
          after.run? actions = some (final, seen) →
          Orderly (made ++ actions) →
          (seen.filterMap Event.writing?).length ≤ n →
            ∀ c i, final.location = .write c (.spin i) →
              i ≠ final.m.tx.rd

theorem phase_append
    {made actions : List Action}
    (orderly : Orderly (made ++ actions)) :
    ∃ phase last,
      made.foldlM Phase.next Phase.beforeBegin = some phase ∧
        actions.foldlM Phase.next phase = some last := by
  obtain ⟨last, all⟩ := Option.isSome_iff_exists.mp orderly
  rw [List.foldlM_append] at all
  obtain ⟨phase, first, onward⟩ := Option.bind_eq_some_iff.mp all
  exact ⟨phase, last, first, onward⟩

/--
What `available` and `peek` return holds good for the calls that follow, in
every run of every client, and what `availableForWrite` returns in every run of
an orderly one.
-/
theorem serial_promises
    {start : Usart}
    {past : List Action}
    {action : Action}
    {emitted : List Event}
    (fresh : start.Fresh)
    (ran : start.run? past = some (u, events))
    (stepped : u.step? action = some (after, emitted)) :
    Promises (past ++ [action]) after emitted := by
  have received := fresh.run?_received ran
  have answers := lookedAt_step? received.ok stepped
  refine ⟨fun n gave => ?_, fun ret gave wanted => ?_,
    fun n gave orderly => ?_⟩
  · obtain ⟨client, within⟩ := answers.available n gave
    exact ⟨within, fun _ _ _ onward noEnd =>
      reads_unread client onward noEnd within⟩
  · obtain ⟨client, c, rest, unread, rfl⟩ := answers.peek ret gave wanted
    intro actions final seen onward noEnd first read
    have one : 1 ≤ after.unread.length := by
      rw [unread]
      exact Nat.le_add_left _ _
    have kept := reads_unread client onward noEnd one
    rw [unread] at kept
    cases reads : seen.filterMap Event.readGave? with
    | nil =>
        rw [reads] at read
        contradiction
    | cons earliest others =>
        rw [reads] at kept read
        cases Option.mem_some_iff.mp read
        exact (List.cons_prefix_cons.mp kept).1
  · obtain ⟨earlier, _, before, _⟩ := phase_append orderly
    have tx := (fresh.run?_tracks before ran).follows.ok
    obtain ⟨client, free⟩ := answers.availableForWrite n gave tx
    refine ⟨free, fun actions final seen onward more written c i spins => ?_⟩
    obtain ⟨phase, last, made, goesOn⟩ := phase_append more
    have all := LabelledRun.run?_append ran (LabelledRun.run?_singleton stepped)
    exact (fresh.run?_tracks made all).room client free goesOn onward written
      spins

/-- Bytes are queued, two characters arrive and are asked for. -/
def asksForTwo : List Action :=
  writesTwo ++
    [.usartReceive (BootKeyboard.ascii 'x') false,
      .usartReceive (BootKeyboard.ascii 'y') false, .call .available, .run]

theorem run?_asksForTwo :
    (powerOn.run? asksForTwo).isSome = true := by
  decide +kernel

theorem step?_asksForTwo :
    (((powerOn.run? asksForTwo).get run?_asksForTwo).1.step?
      .run).isSome = true := by
  decide +kernel

theorem serial_promises_asksForTwo :
    Promises (asksForTwo ++ [.run])
      ((((powerOn.run? asksForTwo).get run?_asksForTwo).1.step?
        .run).get step?_asksForTwo).1
      ((((powerOn.run? asksForTwo).get run?_asksForTwo).1.step?
        .run).get step?_asksForTwo).2 :=
  @serial_promises _ _ _ powerOn asksForTwo .run _ powerOn_fresh
    (Option.some_get run?_asksForTwo).symm
    (Option.some_get step?_asksForTwo).symm

end Usart

end KeyboardEmulator
