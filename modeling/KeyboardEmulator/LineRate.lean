import KeyboardEmulator.DataRegister
import KeyboardEmulator.LockStep

namespace KeyboardEmulator

open BootKeyboard (Byte)
open RingBuffer (Ring next)

/-!
# How long the relay keeps up

In the lock-step run each mapped byte adds sixteen bytes to what is to be sent
and each round takes one away, so the backlog grows by fifteen a round until
both rings and the command in hand are full.
-/

namespace Machine

/-! ## While main settles -/

/-- What main changes while it settles. -/
structure SettleInv
    (past : List Event)
    (sent : Nat)
    (now : List Event)
    (m : Machine) : Prop where
  follows : Follows false now m
  prompt : m.Prompt
  stored : now.filterMap Event.stored? = past.filterMap Event.stored?
  dropped : now.filterMap Event.dropped? = past.filterMap Event.dropped?
  /-- main sends at most the one byte that fits the data register -/
  sentOnce : sentCount now + (if m.udre then 1 else 0) = sent

theorem SettleInv.mainStep
    {past now : List Event}
    {sent : Nat}
    {m : Machine}
    (holds : SettleInv past sent now m) :
    SettleInv past sent (now ++ m.mainStep.2) m.mainStep.1 := by
  obtain ⟨follows, prompt, stored, dropped, sentOnce⟩ := holds
  obtain ⟨noStored, noDropped⟩ := follows.ok.mainEffect.noReception
  refine ⟨@Follows.step? _ _ _ _ _ .main follows rfl,
    prompt.mainStep follows.ok, ?_, ?_, ?_⟩
  · rw [List.filterMap_append, noStored, List.append_nil, stored]
  · rw [List.filterMap_append, noDropped, List.append_nil, dropped]
  · have kept := (@RelayOk.registerStep m .main _ follows.ok rfl).kept
    rw [sentCount_append, ← sentOnce]
    simp only [held, Action.takes, Bool.false_eq_true] at kept
    cases before : m.udre <;> cases after : m.mainStep.1.udre <;>
      simp [before, after] at kept ⊢ <;>
      omega

/-- Main settles without touching what was received. -/
theorem SettleInv.settle
    {past : List Event}
    {m : Machine}
    (follows : Follows false past m)
    (prompt : m.Prompt) :
    SettleInv past (sentCount past + (if m.udre then 1 else 0))
      (past ++ m.settle.2) m.settle.1 :=
  LabelledRun.stepUntil_history (SettleInv past _)
    (fun holds => holds.mainStep) _ ⟨follows, prompt, rfl, rfl, rfl⟩

/-- A mapped byte makes main write two reports. -/
theorem length_bytesFor_of_mapped
    {b : Byte}
    (mapped : b ∈ mappedBytes) :
    (bytesFor b).length = 16 := by
  rw [length_bytesFor, if_pos (translateInput_fst_iff.mpr (.inl mapped))]

theorem length_flatMap_bytesFor
    {consumed : List Byte}
    (mapped : ∀ b ∈ consumed, b ∈ mappedBytes) :
    (consumed.flatMap bytesFor).length = 16 * consumed.length := by
  induction consumed with
  | nil =>
      rfl
  | cons b rest inductionHypothesis =>
      have restMapped : ∀ other ∈ rest, other ∈ mappedBytes :=
        fun other member => mapped other (List.mem_cons_of_mem _ member)
      rw [List.flatMap_cons, List.length_append,
        length_bytesFor_of_mapped (mapped b List.mem_cons_self),
        inductionHypothesis restMapped, List.length_cons]
      omega

/-- Sixteen bytes for each byte accepted are sent, queued, owed or to come. -/
theorem Follows.backlog
    {events : List Event}
    {m : Machine}
    (follows : Follows false events m)
    (mapped : ∀ b ∈ events.filterMap Event.stored?, b ∈ mappedBytes) :
    sentCount events + m.tx.contents.length + m.owed.length +
        16 * m.rx.contents.length =
      16 * (events.filterMap Event.stored?).length := by
  obtain ⟨accepted, _, _, _, _, delivered⟩ := follows.endToEnd
  have consumedMapped :
      ∀ b ∈ events.filterMap Event.consumed?, b ∈ mappedBytes := by
    intro b member
    exact mapped b (by rw [accepted]; exact List.mem_append_left _ member)
  have lengths := congrArg List.length delivered
  rw [length_flatMap_bytesFor consumedMapped, List.length_append,
    List.length_append] at lengths
  rw [accepted, List.length_append, sentCount]
  omega

/-- What `translateInput` already got is all that is owed. -/
theorem owed_of_notPending
    {m : Machine}
    (notPending : m.pc.pending = none) :
    m.owed = m.relay.owed := by
  rw [owed, notPending]
  exact List.append_nil _

/-- The receive ring holds what exceeds both the ring and the command in hand. -/
theorem Follows.unread_of_waits
    {events : List Event}
    {m : Machine}
    (follows : Follows false events m)
    (waiting : m.waits = true)
    {backlog : Nat}
    (total :
      m.tx.contents.length + m.owed.length + 16 * m.rx.contents.length =
        backlog) :
    m.rx.contents.length = (backlog - 64) / 16 ∧
      (0 < backlog → ¬ m.tx.Empty) := by
  have share := follows.owedBound
  have bound := m.tx.occupancy_lt
  have ownTx := @Ring.occupancy_eq_zero_iff _ _ m.tx
  have ownRx := @Ring.occupancy_eq_zero_iff _ _ m.rx
  rw [Ring.length_contents, Ring.length_contents] at total
  rw [Ring.length_contents]
  rcases follows.ok.waits_cases waiting with
    ⟨rxEmpty, atHead⟩ | ⟨command, rest, n, c, i, spins, isFull⟩
  · have owesNothing : m.owed.length = 0 := by
      rcases atHead with pc | ⟨tail, pc⟩ <;> rw [owed, pc] <;> rfl
    have unread := ownRx.mpr rxEmpty
    refine ⟨by omega, fun positive empty => ?_⟩
    have queued := ownTx.mpr empty
    omega
  · obtain ⟨_, _, index⟩ := follows.ok.spins spins
    have full := Ring.full_iff_occupancy.mp (index.symm.trans isFull)
    have owes : 0 < m.owed.length ∧ m.owed.length = m.relay.owed.length := by
      rcases spins with pc | pc <;>
        · rw [owed_of_notPending (by rw [pc]; rfl),
            relay_owed_uncommitted pc rfl]
          exact ⟨Nat.succ_pos _, rfl⟩
    refine ⟨by omega, fun _ empty => ?_⟩
    have queued := ownTx.mpr empty
    omega

/-! ## One round -/

/-- With the interrupt enabled the transmitter takes the oldest queued byte. -/
theorem transmit_of_udrie
    {m : Machine}
    (udrie : m.udrie = true) :
    m.transmit.2 = [.udr m.tx.front] ∧ m.transmit.1.rx = m.rx ∧
      m.transmit.1.udre = false := by
  have control :
      Machine.udrie { m with io := m.io.force .ucsr0a udre0 true } = true :=
    (IoFile.bit_force_other _ (by decide) _ _ _).trans udrie
  rw [transmit, if_pos control]
  exact ⟨rfl, rfl, udre_txUdrEmptyIrq _⟩

/-- The lock-step run after the bytes `s`, none of them dropped. -/
structure InStep
    (s : List Byte)
    (past : List Event)
    (m : Machine) : Prop where
  follows : Follows false past m
  prompt : m.Prompt
  enabled : m.sregI = true
  accepted : past.filterMap Event.stored? = s
  noDrop : past.filterMap Event.dropped? = []
  udre : m.udre = decide (s = [])
  /-- one byte a round, and one more that went straight out in the first -/
  sent : sentCount past = if s = [] then 0 else s.length + 1
  unread : m.rx.contents.length = (15 * s.length - 64) / 16

/-- A byte that arrives in step is stored, unless 63 bytes are unread. -/
theorem InStep.arrival
    {s : List Byte}
    {past : List Event}
    {m : Machine}
    (inStep : InStep s past m)
    (b : Byte) :
    (m.arrive b).2 =
      if m.rx.contents.length = 63 then [.dropped b] else [.stored b] := by
  have stepped := step?_arrive inStep.follows.ok inStep.enabled b
  have shown := inStep.follows.endToEnd.arrival _ _ _ stepped
  rw [SoftwareSerial.sampleByte_samplesOf] at shown
  exact shown

/-- After a stored arrival main settles with the backlog one byte smaller. -/
theorem InStep.settled
    {s : List Byte}
    {past : List Event}
    {m : Machine}
    (inStep : InStep s past m)
    {b : Byte}
    (mapped : ∀ other ∈ s ++ [b], other ∈ mappedBytes)
    (stored : (m.arrive b).2 = [.stored b]) :
    SettleInv (past ++ [.stored b]) (s.length + 1)
        (past ++ [.stored b] ++ (m.arrive b).1.settle.2)
        (m.arrive b).1.settle.1 ∧
      (m.arrive b).1.settle.1.udre = false ∧
        sentCount (past ++ [.stored b] ++ (m.arrive b).1.settle.2) =
          s.length + 1 ∧
          (m.arrive b).1.settle.1.rx.contents.length =
              (15 * (s.length + 1) - 64) / 16 ∧
            ¬ (m.arrive b).1.settle.1.tx.Empty := by
  have ok := inStep.follows.ok
  have stepped := step?_arrive ok inStep.enabled b
  have kept : KeptByReception m (m.arrive b).1 :=
    reception_kept (ok.ready.active ok.returned) false
      (SoftwareSerial.samplesOf b)
  have arrived : Follows false (past ++ [.stored b]) (m.arrive b).1 := by
    rw [← stored]
    exact inStep.follows.step? stepped
  have prompt : (m.arrive b).1.Prompt := by
    intro udre
    rw [kept.udre] at udre
    rw [kept.tx, kept.pc]
    exact inStep.prompt udre
  have before :
      sentCount (past ++ [.stored b]) +
          (if (m.arrive b).1.udre then 1 else 0) =
        s.length + 1 := by
    have noSent : sentCount [Event.stored b] = 0 := rfl
    rw [sentCount_append, noSent, inStep.sent, kept.udre, inStep.udre]
    by_cases empty : s = [] <;> simp [empty]
  have settles := SettleInv.settle arrived prompt
  rw [before] at settles
  have waiting := arrived.ok.waits_settle
  revert settles waiting
  generalize (m.arrive b).1.settle = result
  intro settles waiting
  have accepted :
      (past ++ [Event.stored b] ++ result.2).filterMap Event.stored? =
        s ++ [b] := by
    rw [settles.stored, List.filterMap_append, inStep.accepted]
    rfl
  have total := settles.follows.backlog (by rw [accepted]; exact mapped)
  rw [accepted, List.length_append, List.length_singleton] at total
  have sentOnce := settles.sentOnce
  have udre : result.1.udre = false := by
    by_contra set
    rw [Bool.not_eq_false] at set
    obtain ⟨empty, _⟩ := settles.prompt set
    rw [set] at sentOnce
    simp only [↓reduceIte] at sentOnce
    exact (settles.follows.unread_of_waits waiting rfl).2 (by omega) empty
  rw [udre] at sentOnce
  have unread := settles.follows.unread_of_waits waiting
    (show result.1.tx.contents.length + result.1.owed.length +
        16 * result.1.rx.contents.length = 15 * (s.length + 1) by
      simp only [Bool.false_eq_true, ↓reduceIte] at sentOnce
      omega)
  simp only [Bool.false_eq_true, ↓reduceIte, Nat.add_zero] at sentOnce
  exact ⟨settles, udre, sentOnce, unread.1, unread.2 (by omega)⟩

/-- As long as the byte finds room, a round stays in step. -/
theorem InStep.round
    {s : List Byte}
    {past : List Event}
    {m : Machine}
    (inStep : InStep s past m)
    {b : Byte}
    (mapped : ∀ other ∈ s ++ [b], other ∈ mappedBytes)
    (room : s.length ≤ 71) :
    InStep (s ++ [b]) (past ++ (m.lockStepRound b).2)
      (m.lockStepRound b).1 := by
  have unread := inStep.unread
  have stored : (m.arrive b).2 = [.stored b] := by
    rw [inStep.arrival b, if_neg (by omega)]
  obtain ⟨settles, udre, sent, settledUnread, nonempty⟩ :=
    inStep.settled mapped stored
  have ok := inStep.follows.ok
  have arrivedOk : (m.arrive b).1.RelayOk :=
    ok.step? (step?_arrive ok inStep.enabled b)
  have waiting := arrivedOk.waits_settle
  simp only [lockStepRound, stored]
  revert settles udre sent settledUnread nonempty waiting
  generalize (m.arrive b).1.settle = settled
  intro settles udre sent settledUnread nonempty waiting
  have settledOk := settles.follows.ok
  have enabled := settledOk.enabled_of_waits waiting
  have notEnabling :=
    notEnabling_of_notOff (settledOk.ready.sreg.not_off enabled)
  have udrie := (settledOk.udrie notEnabling).mpr nonempty
  obtain ⟨sends, rx, full⟩ := transmit_of_udrie udrie
  obtain ⟨actions, _, ran, stillEnabled⟩ := run?_transmit enabled
  have follows := settles.follows.run? ran
  have shape :
      past ++ ([Event.stored b] ++ (settled.2 ++ settled.1.transmit.2)) =
        past ++ [Event.stored b] ++ settled.2 ++
          settled.1.transmit.2 := by
    simp only [List.append_assoc]
  have isNonempty : s ++ [b] ≠ [] := List.append_ne_nil_of_right_ne_nil _
    (List.cons_ne_nil _ _)
  rw [shape]
  refine ⟨follows, ?_, stillEnabled, ?_, ?_, ?_, ?_, ?_⟩
  · intro empty
    rw [full] at empty
    contradiction
  · rw [sends, List.filterMap_append, settles.stored,
      List.filterMap_append, inStep.accepted]
    exact List.append_nil _
  · rw [sends, List.filterMap_append, settles.dropped,
      List.filterMap_append, inStep.noDrop]
    rfl
  · rw [full, decide_eq_false isNonempty]
  · rw [sentCount_append, sent, sends, if_neg isNonempty,
      List.length_append]
    rfl
  · rw [rx, settledUnread, List.length_append]
    rfl

/-- Up to 72 bytes the whole run stays in step. -/
theorem InStep.lockStep
    {s later : List Byte}
    {past : List Event}
    {m : Machine}
    (inStep : InStep s past m)
    (mapped : ∀ b ∈ s ++ later, b ∈ mappedBytes)
    (room : s.length + later.length ≤ 72) :
    InStep (s ++ later) (past ++ (m.lockStep later).2)
      (m.lockStep later).1 := by
  induction later generalizing s past m with
  | nil =>
      simpa [Machine.lockStep] using inStep
  | cons b rest inductionHypothesis =>
      have regroup : s ++ b :: rest = s ++ [b] ++ rest := by simp
      rw [regroup] at mapped
      rw [List.length_cons] at room
      have first := inStep.round
        (fun other member => mapped other (List.mem_append_left _ member))
        (by omega)
      have onward := inductionHypothesis first mapped (by
        rw [List.length_append, List.length_singleton]
        omega)
      rw [regroup, Machine.lockStep]
      simpa only [List.append_assoc] using onward

/-- With the 73rd byte one is dropped. -/
theorem InStep.lockStep_drops
    {s later : List Byte}
    {past : List Event}
    {m : Machine}
    (inStep : InStep s past m)
    (mapped : ∀ b ∈ s ++ later, b ∈ mappedBytes)
    (within : s.length ≤ 72)
    (long : 72 < s.length + later.length) :
    (m.lockStep later).2.any Event.drops = true := by
  induction later generalizing s past m with
  | nil =>
      rw [List.length_nil] at long
      omega
  | cons b rest inductionHypothesis =>
      have regroup : s ++ b :: rest = s ++ [b] ++ rest := by simp
      rw [regroup] at mapped
      rw [List.length_cons] at long
      simp only [Machine.lockStep, List.any_append, Bool.or_eq_true]
      by_cases last : s.length = 72
      · left
        have unread := inStep.unread
        have dropped : (m.arrive b).2 = [.dropped b] := by
          rw [inStep.arrival b, if_pos (by omega)]
        simp [lockStepRound, dropped, Event.drops]
      · right
        have first := inStep.round
          (fun other member => mapped other (List.mem_append_left _ member))
          (by omega)
        have length : (s ++ [b]).length = s.length + 1 := by simp
        exact inductionHypothesis first mapped (by omega) (by omega)

/-! ## From the idle state -/

/-- Idle after setup: main polls, both rings and the data register are empty. -/
structure IdleStart (m : Machine) : Prop where
  reached :
    ∃ begun actions events,
      AfterBegin begun ∧ begun.run? actions = some (m, events)
  atLoopHead : m.pc = .here .loopHead
  rxEmpty : m.rx.Empty
  txEmpty : m.tx.Empty
  udre : m.udre = true
  noOverflow : m.uart.bufferOverflow = false

/-- After power-on main alone gets to the idle state. -/
theorem exists_idleStart : ∃ start : Machine, start.IdleStart := by
  obtain ⟨n, atLoopHead, same⟩ := afterBegin_powerOn.exists_loopHead
  obtain ⟨events, ran⟩ := run?_mainSteps n (powerOn.mainSteps 81)
  refine ⟨_, ⟨⟨_, _, events, afterBegin_powerOn, ran⟩, atLoopHead,
    ?_, ?_, ?_, ?_⟩⟩
  · rw [same.rx]
    exact afterBegin_powerOn.rxEmpty
  · rw [same.tx]
    exact afterBegin_powerOn.txEmpty
  · rw [same.udre]
    decide +kernel
  · rw [same.overflow]
    decide +kernel

theorem IdleStart.inStep
    {start : Machine}
    (idle : start.IdleStart) :
    InStep [] [] start := by
  obtain ⟨begun, actions, events, atBegin, ran⟩ := idle.reached
  have ok : start.RelayOk := atBegin.relayOk.run? ran
  have follows := ok.follows idle.rxEmpty (by rw [idle.atLoopHead]; rfl)
    (by rw [idle.atLoopHead]; rfl) idle.txEmpty
  rw [idle.noOverflow] at follows
  refine ⟨follows, fun _ => ⟨idle.txEmpty, by rw [idle.atLoopHead]; rfl⟩,
    ok.sregI_of_outside idle.atLoopHead rfl rfl, rfl, rfl, idle.udre, rfl,
    ?_⟩
  rw [Ring.contents_eq_nil_iff.mpr idle.rxEmpty]
  rfl

/-- The lock-step run drops a byte exactly when 72 are exceeded. -/
theorem IdleStart.drops_lockStep
    {start : Machine}
    (idle : start.IdleStart)
    {s : List Byte}
    (mapped : ∀ b ∈ s, b ∈ mappedBytes) :
    (start.lockStep s).2.any Event.drops = decide (72 < s.length) := by
  by_cases long : 72 < s.length
  · rw [decide_eq_true long]
    exact idle.inStep.lockStep_drops mapped (by simp) (by simpa using long)
  · have stays := idle.inStep.lockStep mapped (by simpa using long)
    rw [decide_eq_false long, ← Bool.not_eq_true, Event.any_drops_iff]
    exact not_not.mpr stays.noDrop

/-- The events of the lock-step run account for the state it reaches. -/
theorem IdleStart.follows_lockStep
    {start : Machine}
    (idle : start.IdleStart)
    (s : List Byte) :
    Follows false (start.lockStep s).2 (start.lockStep s).1 := by
  obtain ⟨actions, ran⟩ :=
    run?_lockStep idle.inStep.follows.ok idle.inStep.enabled s
  exact idle.inStep.follows.run? ran

/--
From the idle state the lock-step run of a list of mapped bytes loses nothing
exactly when the list has at most 72 bytes; then continuing without arrivals,
which can always be done until everything is sent, sends the reports of the
whole list.
-/
theorem line_rate_iff
    {start : Machine}
    (idle : start.IdleStart)
    {s : List Byte}
    (mapped : ∀ b ∈ s, b ∈ mappedBytes) :
    (∃ actions, start.run? actions = some (start.lockStep s)) ∧
      ((start.lockStep s).1.uart.bufferOverflow = false ↔
        s.length ≤ 72) ∧
        ((start.lockStep s).2.filterMap Event.dropped? = [] ↔
          s.length ≤ 72) ∧
          (s.length ≤ 72 →
            (∃ draining final seen,
              (∀ action ∈ draining, Action.isArrival action = false) ∧
                (start.lockStep s).1.run? draining =
                    some (final, seen) ∧
                  final.Idle) ∧
              ∀ (draining : List Action) (final : Machine)
                  (seen : List Event),
                (∀ action ∈ draining, action.isArrival = false) →
                (start.lockStep s).1.run? draining =
                  some (final, seen) →
                final.Idle →
                  ((start.lockStep s).2 ++ seen).filterMap Event.udr? =
                    written start.keyboardBuffer s) := by
  have follows := idle.follows_lockStep s
  have drops := idle.drops_lockStep mapped
  refine ⟨run?_lockStep idle.inStep.follows.ok idle.inStep.enabled s,
    ?_, ?_, fun short => ⟨follows.ok.exists_drain, ?_⟩⟩
  · rw [follows.overflow, drops]
    simp
  · rw [← not_iff_not, ← ne_eq, ← Event.any_drops_iff, drops]
    simp
  · intro draining final seen noArrivals drained atEnd
    have stays := idle.inStep.lockStep mapped (by simpa using short)
    have accepted := stays.accepted
    rw [List.nil_append, List.nil_append] at accepted
    rw [(follows.run? drained).endToEnd.sent_of_idle atEnd, List.filterMap_append,
      accepted, run?_noStored follows.ok noArrivals drained,
      List.append_nil, written_eq_flatMap]

/-- A single `a` at line rate. -/
theorem line_rate_iff_a :
    ∃ start : Machine,
      start.IdleStart ∧
        (start.lockStep [BootKeyboard.ascii 'a']).1.uart.bufferOverflow =
          false := by
  obtain ⟨start, idle⟩ := exists_idleStart
  exact ⟨start, idle,
    (line_rate_iff idle (by decide +kernel)).2.1.mpr (by decide)⟩

/-- Of 73 times `a` at line rate one is dropped. -/
theorem line_rate_overflow :
    ∃ start : Machine,
      start.IdleStart ∧
        (∀ b ∈ List.replicate 73 (BootKeyboard.ascii 'a'),
            b ∈ mappedBytes) ∧
          (start.lockStep
            (List.replicate 73
              (BootKeyboard.ascii 'a'))).1.uart.bufferOverflow = true := by
  have isMapped : BootKeyboard.ascii 'a' ∈ mappedBytes := by
    decide +kernel
  have mapped :
      ∀ b ∈ List.replicate 73 (BootKeyboard.ascii 'a'), b ∈ mappedBytes := by
    intro b member
    rw [List.eq_of_mem_replicate member]
    exact isMapped
  obtain ⟨start, idle⟩ := exists_idleStart
  refine ⟨start, idle, mapped, ?_⟩
  rw [(idle.follows_lockStep _).overflow, idle.drops_lockStep mapped]
  rfl

end Machine

end KeyboardEmulator
