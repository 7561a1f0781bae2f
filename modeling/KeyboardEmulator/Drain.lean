import KeyboardEmulator.DataRegister
import KeyboardEmulator.Potential

namespace KeyboardEmulator

open BootKeyboard (Byte)
open RingBuffer (Ring next)

/-!
# The relay drains

The potential bounds the steps of a run without arrivals by what is visible in
the state it starts from, and such a run stops only when everything is sent.
-/

namespace Machine

/-! ## A bound from what is visible -/

/-- Steps left at a position, whatever the rings hold. -/
def posBound : Pos → Nat
  | .construct | .init | .serialBegin | .uartBegin =>
      0
  | .setTimeout =>
      ledSetupSteps + readCost + 4
  | .loopHead | .availHead _ =>
      readCost + 3
  | .readHead | .readTail _ | .readIndex | .readCell _
  | .readNext _ | .readStore _ _ =>
      6
  | .translate _ | .sendKey =>
      sendCost + readCost + 2
  | .print command bytes _ =>
      printCost command bytes.length + readCost + 2
  | .write command rest _ _ _ =>
      printCost command rest.length + readCost + 19

def pcBound : Pc → Nat
  | .code todo loaded continuation =>
      codeLength todo loaded + 1 + posBound continuation
  | .here position =>
      posBound position

/--
A bound on the steps to drain, from the number of unread bytes, the number of
queued bytes and main's position.
-/
def drainBound (unread queued : Nat) (pc : Pc) : Nat :=
  unreadCost * unread + 3 * queued + 1 + pcBound pc

theorem loopCost_le (rx : Ring Byte 64) :
    loopCost rx ≤ readCost + 2 := by
  rw [loopCost]
  split
  · exact Nat.zero_le _
  · exact Nat.le_refl _

theorem writeCost_le
    (tx : Ring Byte 64)
    (position : WriteAt) :
    writeCost tx position ≤ 17 := by
  cases position with
  | spinSreg i =>
      simp only [writeCost]
      split <;> omega
  | fastUcsra loaded | slowUcsrb loaded =>
      cases loaded <;> simp only [writeCost] <;> omega
  | _ =>
      simp only [writeCost]
      omega

theorem posCost_le
    (rx tx : Ring Byte 64)
    (position : Pos) :
    posCost rx tx position ≤ posBound position := by
  have loop := loopCost_le rx
  cases position with
  | availHead tail =>
      simp only [posCost, posBound]
      generalize readCost = read
      split
      · omega
      · split <;> omega
  | sendKey =>
      simp only [posCost, posBound, sendCost]
      omega
  | write command rest n c position =>
      have write := writeCost_le tx position
      simp only [posCost, posBound]
      omega
  | _ =>
      simp only [posCost, posBound]
      omega

theorem potential_le_drainBound (m : Machine) :
    m.potential ≤
      drainBound m.rx.contents.length m.tx.contents.length m.pc := by
  have udre : (if m.udre then 0 else 1) ≤ 1 := by
    split <;> omega
  have position : pcCost m.rx m.tx m.pc ≤ pcBound m.pc := by
    cases m.pc with
    | code todo loaded continuation =>
        exact Nat.add_le_add_left (posCost_le _ _ _) _
    | here position =>
        exact posCost_le _ _ _
  simp only [potential, drainBound, Ring.length_contents]
  omega

/-! ## Where a drain stops -/

/-- Nothing is left to do: no enabled step is one that is bounded. -/
def Stopped (m : Machine) : Prop :=
  ∀ (action : Action) (result : Machine × List Event),
    action.isArrival = false →
    m.step? action = some result →
      m.counted action = false

/-- Everything is sent and main polls, at the loop head or about to be. -/
structure Idle (m : Machine) : Prop where
  rxEmpty : m.rx.Empty
  txEmpty : m.tx.Empty
  atLoopHead :
    m.pc = .here .loopHead ∨
      (∃ tail, m.pc = .here (.availHead tail)) ∧
        m.mainStep.1.pc = .here .loopHead

/-- Main is in the loop of `write` that waits for room at index `i`. -/
def SpinsAt
    (m : Machine)
    (command : Command)
    (rest : List Byte)
    (n : Nat)
    (c : Byte)
    (i : Fin 64) : Prop :=
  m.pc = .here (.write command rest n c (.spin i)) ∨
    m.pc = .here (.write command rest n c (.spinSreg i))

/-- Main that waits polls with nothing available, or spins on a full ring. -/
theorem RelayOk.waits_cases
    {m : Machine}
    (ok : m.RelayOk)
    (waiting : m.waits = true) :
    (m.rx.Empty ∧
        (m.pc = .here .loopHead ∨ ∃ tail, m.pc = .here (.availHead tail))) ∨
      ∃ command rest n c i,
        m.SpinsAt command rest n c i ∧ i = m.tx.rd := by
  have target := ok.position
  rw [waits] at waiting
  cases pc : m.pc with
  | code todo loaded continuation =>
      rw [pc] at waiting
      contradiction
  | here position =>
      rw [PcOk, pc] at target
      rw [pc] at waiting
      cases position with
      | loopHead =>
          exact .inl ⟨of_decide_eq_true waiting, .inl rfl⟩
      | availHead tail =>
          exact .inl ⟨of_decide_eq_true waiting, .inr ⟨tail, rfl⟩⟩
      | write command rest n c position =>
          cases position with
          | spin i =>
              exact .inr ⟨command, rest, n, c, i, .inl pc,
                of_decide_eq_true waiting⟩
          | spinSreg i =>
              exact .inr ⟨command, rest, n, c, i, .inr pc,
                of_decide_eq_true waiting⟩
          | spinUdre i =>
              exact target.elim
          | _ =>
              contradiction
      | _ =>
          contradiction

/-- Where main spins, interrupts are on and `i` is the index after the head. -/
theorem RelayOk.spins
    {m : Machine}
    (ok : m.RelayOk)
    {command : Command}
    {rest : List Byte}
    {n : Nat}
    {c : Byte}
    {i : Fin 64}
    (spins : m.SpinsAt command rest n c i) :
    m.sregI = true ∧ m.pc.enabling = false ∧ i = next m.tx.wr := by
  have target := ok.position
  rcases spins with pc | pc <;> rw [PcOk, pc] at target <;>
    exact ⟨ok.sregI_of_outside pc rfl rfl, by rw [pc]; rfl, target⟩

/-- A full ring is not empty, so its transmit interrupt is enabled. -/
theorem RelayOk.udrie_of_full
    {m : Machine}
    (ok : m.RelayOk)
    (full : m.tx.Full)
    (notEnabling : m.pc.enabling = false) :
    m.udrie = true :=
  (ok.udrie notEnabling).mpr
    (fun empty => Ring.not_full_of_empty (by decide) empty full)

theorem RelayOk.idle_of_stopped
    {m : Machine}
    (ok : m.RelayOk)
    (stopped : m.Stopped) :
    m.Idle := by
  have udre : m.udre = true := by
    by_contra clear
    rw [Bool.not_eq_true] at clear
    have refused :=
      stopped .shiftOut _ rfl
        (by rw [Machine.step?, if_neg (by simpa [Machine.udre] using clear)])
    contradiction
  have noIrq : m.sregI = true → m.udrie = false := by
    intro enabled
    by_contra set
    rw [Bool.not_eq_false] at set
    have allowed :
        (m.sregI && m.io.bit .ucsr0b udrie0 &&
          m.io.bit .ucsr0a udre0) = true := by
      rw [enabled, show m.io.bit .ucsr0b udrie0 = true from set,
        show m.io.bit .ucsr0a udre0 = true from udre]
      rfl
    have refused :=
      stopped .dataRegisterEmpty _ rfl
        (by rw [Machine.step?, if_pos allowed])
    contradiction
  have waiting : m.waits = true := by
    have refused := stopped .main _ rfl rfl
    simpa [counted] using refused
  rcases ok.waits_cases waiting with
    ⟨rxEmpty, atHead⟩ | ⟨command, rest, n, c, i, spins, isFull⟩
  · have polling : m.pc.enabling = false ∧ m.sregI = true := by
      rcases atHead with pc | ⟨tail, pc⟩ <;>
        exact ⟨by rw [pc]; rfl, ok.sregI_of_outside pc rfl rfl⟩
    have txEmpty : m.tx.Empty := by
      by_contra nonempty
      have set := (ok.udrie polling.1).mpr nonempty
      rw [noIrq polling.2] at set
      contradiction
    refine ⟨rxEmpty, txEmpty, ?_⟩
    rcases atHead with pc | ⟨tail, pc⟩
    · exact .inl pc
    · refine .inr ⟨⟨tail, pc⟩, ?_⟩
      have target := ok.position
      rw [PcOk, pc] at target
      have unavailable :
          ¬ SoftwareSerial.availableFrom tail m.rx.rd ≠ 0 :=
        fun available =>
          target.2 (availableFrom_ne_zero_iff.mp available) rxEmpty
      rw [mainStep, pc]
      dsimp only
      rw [pollStep, if_neg unavailable]
  · obtain ⟨enabled, notEnabling, index⟩ := ok.spins spins
    have set := ok.udrie_of_full (index.symm.trans isFull) notEnabling
    rw [noIrq enabled] at set
    contradiction

/-- Without arrivals the relay can always be run until everything is sent. -/
theorem RelayOk.exists_drain
    {m : Machine}
    (ok : m.RelayOk) :
    ∃ draining final seen,
      (∀ action ∈ draining, Action.isArrival action = false) ∧
        m.run? draining = some (final, seen) ∧
          final.Idle := by
  generalize share : m.potential = budget
  induction budget using Nat.strong_induction_on generalizing m with
  | _ budget inductionHypothesis =>
      by_cases stopped : m.Stopped
      · exact ⟨[], m, [], by simp, rfl, ok.idle_of_stopped stopped⟩
      · rw [Stopped] at stopped
        push Not at stopped
        obtain ⟨action, result, noArrival, stepped, counts⟩ := stopped
        have paid := pays ok noArrival stepped
        have isCounted : m.counted action = true := by simpa using counts
        simp only [isCounted, ↓reduceIte] at paid
        obtain ⟨draining, final, seen, noArrivals, ran, idle⟩ :=
          inductionHypothesis result.1.potential (by omega)
            (ok.step? stepped) rfl
        refine ⟨action :: draining, final, result.2 ++ seen, ?_,
          LabelledRun.run?_cons_iff.mpr
            ⟨result.1, result.2, seen, stepped, ran, rfl⟩, idle⟩
        intro other member
        rcases List.mem_cons.mp member with rfl | later
        · exact noArrival
        · exact noArrivals other later

/-- Only `recv` stores a byte. -/
theorem step?_noStored
    {m : Machine}
    {action : Action}
    {result : Machine × List Event}
    (ok : m.RelayOk)
    (noArrival : action.isArrival = false)
    (stepped : m.step? action = some result) :
    result.2.filterMap Event.stored? = [] := by
  cases step?_inversion stepped with
  | main =>
      exact ok.mainEffect.noReception.1
  | pinChange =>
      contradiction
  | dataRegisterEmpty | usartReceive | shiftOut =>
      rfl

/-- Without arrivals nothing is stored. -/
theorem run?_noStored
    {m final : Machine}
    {actions : List Action}
    {events : List Event}
    (ok : m.RelayOk)
    (noArrivals : ∀ action ∈ actions, action.isArrival = false)
    (ran : m.run? actions = some (final, events)) :
    events.filterMap Event.stored? = [] := by
  induction actions generalizing m events with
  | nil =>
      cases ran
      rfl
  | cons action rest inductionHypothesis =>
      obtain ⟨middle, first, later, stepped, continued, rfl⟩ :=
        LabelledRun.run?_cons_iff.mp ran
      have here : first.filterMap Event.stored? = [] :=
        step?_noStored ok (noArrivals action List.mem_cons_self) stepped
      have onward := inductionHypothesis (ok.step? stepped)
        (fun other member =>
          noArrivals other (List.mem_cons_of_mem _ member)) continued
      rw [List.filterMap_append, here, onward]
      rfl

/-- Once idle, everything that was stored has been sent. -/
theorem EndToEnd.sent_of_idle
    {events : List Event}
    {m : Machine}
    (account : EndToEnd events m)
    (idle : m.Idle) :
    events.filterMap Event.udr? =
      (events.filterMap Event.stored?).flatMap bytesFor := by
  have nothingOwed : m.owed = [] := by
    rcases idle.atLoopHead with pc | ⟨⟨tail, pc⟩, _⟩ <;> rw [owed, pc] <;> rfl
  rw [account.sent_of_transmitted nothingOwed idle.txEmpty, account.accepted,
    Ring.contents_eq_nil_iff.mpr idle.rxEmpty, List.append_nil]

/-- One firing of the transmit handler lets a spinning main go on. -/
theorem RelayOk.spin_proceeds
    {m : Machine}
    (ok : m.RelayOk)
    {command : Command}
    {rest : List Byte}
    {n : Nat}
    {c : Byte}
    {i : Fin 64}
    (spins : m.SpinsAt command rest n c i)
    (isFull : i = m.tx.rd) :
    m.sregI = true ∧ m.udrie = true ∧
      ∀ result, m.step? .dataRegisterEmpty = some result →
        ∃ k ≤ 2,
          (result.1.mainSteps k).pc =
            .here (.write command rest n c (.cellIndex i)) := by
  obtain ⟨enabled, notEnabling, index⟩ := ok.spins spins
  have full : m.tx.Full := index.symm.trans isFull
  have udrie := ok.udrie_of_full full notEnabling
  have nonempty := (ok.udrie notEnabling).mp udrie
  refine ⟨enabled, udrie, fun result stepped => ?_⟩
  cases step?_inversion stepped with
  | dataRegisterEmpty =>
      have room : ¬ i = (m.interrupt txUdrEmptyIrq).1.tx.rd := by
        rw [index]
        exact Ring.not_full_release nonempty
      have samePc : (m.interrupt txUdrEmptyIrq).1.pc = m.pc := rfl
      have flag : (m.interrupt txUdrEmptyIrq).1.sregI = true := rfl
      revert room samePc flag
      generalize (m.interrupt txUdrEmptyIrq).1 = after
      intro room samePc flag
      rcases spins with pc | pc
      · refine ⟨1, by omega, ?_⟩
        rw [mainSteps, mainSteps, mainStep, samePc, pc]
        simp only [sendStep, writeStep, if_neg room]
      · refine ⟨2, by omega, ?_⟩
        have looked :
            after.mainStep.1 =
              { after with
                pc := .here (.write command rest n c (.spin i)) } := by
          rw [mainStep, samePc, pc]
          simp [sendStep, writeStep, flag]
        rw [mainSteps, looked, mainSteps, mainSteps, mainStep]
        simp only [sendStep, writeStep, if_neg room]

/-- The relay cannot deadlock and always drains. -/
structure Drains (m : Machine) : Prop where
  udrieFollows :
    ¬ m.InterruptsOff → (m.udrie = true ↔ ¬ m.tx.Empty)
  spinEnds :
    ∀ command rest n c i,
      m.SpinsAt command rest n c i →
      i = m.tx.rd →
        m.sregI = true ∧ m.udrie = true ∧
          ∀ result, m.step? .dataRegisterEmpty = some result →
            ∃ k ≤ 2,
              (result.1.mainSteps k).pc =
                .here (.write command rest n c (.cellIndex i))
  bounded :
    ∀ (draining : List Action) (final : Machine) (seen : List Event),
      (∀ action ∈ draining, action.isArrival = false) →
      run? m draining = some (final, seen) →
        LabelledRun.countedSteps Machine.step? counted m draining ≤
          drainBound m.rx.contents.length m.tx.contents.length m.pc
  stopsIdle :
    ∀ (draining : List Action) (final : Machine) (seen : List Event),
      (∀ action ∈ draining, action.isArrival = false) →
      run? m draining = some (final, seen) →
      final.Stopped →
        final.Idle

theorem RelayOk.bounded
    {m final : Machine}
    {draining : List Action}
    {seen : List Event}
    (ok : m.RelayOk)
    (noArrivals : ∀ action ∈ draining, action.isArrival = false)
    (ran : m.run? draining = some (final, seen)) :
    LabelledRun.countedSteps Machine.step? counted m draining ≤
      drainBound m.rx.contents.length m.tx.contents.length m.pc := by
  have paid :=
    @LabelledRun.countedSteps_add_potential_le _ _ _ Machine.step? counted
      (fun action => action.isArrival = false) RelayOk potential
      (fun holds _ stepped => holds.step? stepped)
      (fun {state next action emitted} holds allowed stepped =>
        @pays state action (next, emitted) holds allowed stepped)
      m final draining seen ok noArrivals ran
  have bound := m.potential_le_drainBound
  omega

/--
From every state of every run after `uart.begin`: UDRIE follows the transmit
ring, a spinning main is let go by the next transmit interrupt, and without
arrivals all steps but waits are bounded and can only stop when all is sent.
-/
theorem relay_drains
    {begun m : Machine}
    {actions : List Action}
    {events : List Event}
    (atBegin : begun.AfterBegin)
    (ran : begun.run? actions = some (m, events)) :
    m.Drains := by
  have ok : m.RelayOk := atBegin.relayOk.run? ran
  exact
    { udrieFollows := fun notOff => ok.udrie (notEnabling_of_notOff notOff)
      spinEnds := fun _ _ _ _ _ spins isFull => ok.spin_proceeds spins isFull
      bounded := fun _ _ _ noArrivals drained =>
        ok.bounded noArrivals drained
      stopsIdle := fun _ _ _ _ drained stopped =>
        (ok.run? drained).idle_of_stopped stopped }

/-- The state at the return of `uart.begin` after power-on drains. -/
theorem relay_drains_powerOn : (powerOn.mainSteps 81).Drains :=
  relay_drains afterBegin_powerOn (LabelledRun.run?_nil _)

end Machine

end KeyboardEmulator
