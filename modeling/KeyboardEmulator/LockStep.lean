import KeyboardEmulator.Drain

namespace KeyboardEmulator

open BootKeyboard (Byte)
open RingBuffer (Ring next)

/-!
# The lock-step run

Both links run at the same rate: one byte arrives, main runs until it has to
wait, and the transmitter moves on by one byte.
-/

namespace Machine

/-- `recv` delivers a byte. -/
def arrive (m : Machine) (b : Byte) : Machine × List Event :=
  m.interrupt
    (fun entered =>
      entered.handleInterrupt false (SoftwareSerial.samplesOf b))

/--
Main runs until it spins on a full ring or polls with nothing available; the
steps it is given always suffice (`RelayOk.waits_settle`).
-/
def settle (m : Machine) : Machine × List Event :=
  LabelledRun.stepUntil waits mainStep (m.potential + 1) m

/--
The transmitter moves on by one byte: the data register becomes empty, and if
the interrupt is enabled its handler puts the next byte there.
-/
def transmit (m : Machine) : Machine × List Event :=
  let shifted := { m with io := m.io.force .ucsr0a udre0 true }
  if shifted.udrie then
    shifted.interrupt txUdrEmptyIrq
  else
    (shifted, [])

/-- One round: a byte arrives, main settles, a byte leaves. -/
def lockStepRound (m : Machine) (b : Byte) : Machine × List Event :=
  let arrived := m.arrive b
  let settled := arrived.1.settle
  let moved := settled.1.transmit
  (moved.1, arrived.2 ++ (settled.2 ++ moved.2))

/-- One round for each byte. -/
def lockStep (m : Machine) : List Byte → Machine × List Event
  | [] =>
      (m, [])
  | b :: rest =>
      let first := m.lockStepRound b
      let later := first.1.lockStep rest
      (later.1, first.2 ++ later.2)

/-! ## It is a run of the system -/

/-- While interrupts are on, reception is enabled and delivers the byte. -/
theorem step?_arrive
    {m : Machine}
    (ok : m.RelayOk)
    (enabled : m.sregI = true)
    (b : Byte) :
    m.step? (.pinChange false (SoftwareSerial.samplesOf b)) =
      some (m.arrive b) := by
  have receives := ok.ready.receiverUp ok.returned
    (ok.ready.sreg.not_off enabled)
  rw [step?, if_pos (by rw [enabled, receives.pinChange]; rfl), arrive]

/-- Main waits only with interrupts on. -/
theorem RelayOk.enabled_of_waits
    {m : Machine}
    (ok : m.RelayOk)
    (waiting : m.waits = true) :
    m.sregI = true := by
  rcases ok.waits_cases waiting with
    ⟨_, pc | ⟨tail, pc⟩⟩ | ⟨command, rest, n, c, i, spins, _⟩
  · exact ok.sregI_of_outside pc rfl rfl
  · exact ok.sregI_of_outside pc rfl rfl
  · exact (ok.spins spins).1

/-- Main always comes to a point where it waits. -/
theorem RelayOk.waits_settle
    {m : Machine}
    (ok : m.RelayOk) :
    m.settle.1.waits = true := by
  refine @LabelledRun.done_stepUntil _ _ waits mainStep RelayOk potential
    ?_ ?_ _ m ok (Nat.lt_succ_self _)
  · intro state holds
    exact @RelayOk.step? state .main _ holds rfl
  · intro state holds busy
    have paid := pays_mainStep holds
    rw [busy] at paid
    exact paid

theorem run?_settle (m : Machine) :
    ∃ count, m.run? (List.replicate count .main) = some m.settle :=
  @LabelledRun.run?_stepUntil _ _ _ Machine.step? waits mainStep .main
    (fun _ => rfl) _ m

/-- A set bit stays as it is when the hardware sets it. -/
theorem force_of_bit
    {io : IoFile}
    {reg : Reg}
    {b : Nat}
    (set : io.bit reg b = true) :
    io.force reg b true = io := by
  funext query
  by_cases same : query = reg
  · subst same
    apply BitVec.eq_of_getLsbD_eq
    intro k _
    simp only [IoFile.force, ↓reduceIte, BitVec.getLsbD_or, getLsbD_bv]
    by_cases isBit : k = b
    · rw [isBit, show (io query).getLsbD b = true from set, Bool.true_or]
    · simp [isBit]
  · simp [IoFile.force, same]

/-- The data register becomes empty, if it was not. -/
theorem run?_shiftOut (m : Machine) :
    ∃ actions,
      (∀ action ∈ actions, action.isArrival = false) ∧
        m.run? actions =
          some ({ m with io := m.io.force .ucsr0a udre0 true }, []) := by
  cases udre : m.io.bit .ucsr0a udre0 with
  | false =>
      refine ⟨[.shiftOut], by simp [Action.isArrival], ?_⟩
      apply LabelledRun.run?_singleton
      rw [step?, if_neg (by simp [udre])]
  | true =>
      refine ⟨[], by simp, ?_⟩
      rw [force_of_bit udre]
      rfl

theorem run?_transmit
    {m : Machine}
    (enabled : m.sregI = true) :
    ∃ actions,
      (∀ action ∈ actions, action.isArrival = false) ∧
        m.run? actions = some m.transmit ∧
          m.transmit.1.sregI = true := by
  obtain ⟨actions, noArrivals, shifted⟩ := run?_shiftOut m
  rw [transmit]
  split
  next udrie =>
    refine ⟨actions ++ [.dataRegisterEmpty], ?_, ?_, rfl⟩
    · intro action member
      rcases List.mem_append.mp member with early | last
      · exact noArrivals action early
      · rw [List.mem_singleton.mp last]
        rfl
    · refine LabelledRun.run?_append shifted
        (LabelledRun.run?_singleton ?_)
      have udre :
          (m.io.force .ucsr0a udre0 true).bit .ucsr0a udre0 = true :=
        IoFile.bit_force_same _ _ (by decide) _
      have control :
          (m.io.force .ucsr0a udre0 true).bit .ucsr0b udrie0 = true :=
        udrie
      rw [step?, if_pos (by simp only [enabled, udre, control]; rfl)]
      rfl
  next =>
    exact ⟨actions, noArrivals, shifted, enabled⟩

/-- A round is a run that ends with interrupts on. -/
theorem run?_lockStepRound
    {m : Machine}
    (ok : m.RelayOk)
    (enabled : m.sregI = true)
    (b : Byte) :
    (∃ actions, m.run? actions = some (m.lockStepRound b)) ∧
      (m.lockStepRound b).1.sregI = true := by
  have arrived :=
    LabelledRun.run?_singleton (step?_arrive ok enabled b)
  have afterArrival : (m.arrive b).1.RelayOk :=
    ok.step? (step?_arrive ok enabled b)
  obtain ⟨count, settled⟩ := run?_settle (m.arrive b).1
  have afterSettle : (m.arrive b).1.settle.1.RelayOk :=
    afterArrival.run? settled
  have waiting := afterArrival.waits_settle
  obtain ⟨actions, _, moved, stillEnabled⟩ :=
    run?_transmit (afterSettle.enabled_of_waits waiting)
  exact ⟨⟨_, LabelledRun.run?_append arrived
    (LabelledRun.run?_append settled moved)⟩, stillEnabled⟩

/-- So is the whole lock-step run. -/
theorem run?_lockStep
    {m : Machine}
    (ok : m.RelayOk)
    (enabled : m.sregI = true)
    (s : List Byte) :
    ∃ actions, m.run? actions = some (m.lockStep s) := by
  induction s generalizing m with
  | nil =>
      exact ⟨[], rfl⟩
  | cons b rest inductionHypothesis =>
      obtain ⟨⟨first, ran⟩, stillEnabled⟩ :=
        run?_lockStepRound ok enabled b
      obtain ⟨later, continued⟩ :=
        inductionHypothesis (ok.run? ran) stillEnabled
      exact ⟨first ++ later, LabelledRun.run?_append ran continued⟩

end Machine

end KeyboardEmulator
