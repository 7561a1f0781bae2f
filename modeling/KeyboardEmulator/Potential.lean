import KeyboardEmulator.RelayRefinement

namespace KeyboardEmulator

open BootKeyboard (Byte)
open RingBuffer (Ring next)

/-!
# What is left to do

Without further arrivals each step other than a wait uses up some of a
potential: the steps main has still to take for the byte in hand, a share for
every unread byte with all that it expands to, and a share for every byte queued
for the transmitter.
-/

/-- Steps from the start of the blink before `read()` to `translateInput`. -/
def readCost : Nat :=
  blinkSteps 1000 + 7

/-- Steps to write one byte through the ring, and to send it from there. -/
def byteCost : Nat :=
  18

/-- Steps to write what is left of a buffer and of the buffer after it. -/
def printCost : Command → Nat → Nat
  | .key, left => byteCost * left + 1 + (byteCost * 8 + 1)
  | .clear, left => byteCost * left + 1

/-- Steps from `translateInput` to the end of both writes. -/
def sendCost : Nat :=
  blinkSteps 1000 + (printCost .key 8 + 3)

/-- Share of one unread byte: polling, reading, translating and writing. -/
def unreadCost : Nat :=
  readCost + 2 + sendCost

/-- At the loop head there is work only when a byte waits. -/
def loopCost (rx : Ring Byte 64) : Nat :=
  if rx.Empty then 0 else readCost + 2

/-- A pin change is how a byte arrives on the UART. -/
def Action.isArrival : Action → Bool
  | .pinChange _ _ => true
  | _ => false

namespace Machine

/-- Steps left in `write`, given the transmit ring. -/
def writeCost (tx : Ring Byte 64) : WriteAt → Nat
  | .compareHead => 17
  | .compareTail _ => 16
  | .testUdre => 15
  | .nextIndex => 14
  | .spin _ | .spinUdre _ => 13
  | .spinSreg _ => if tx.Full then 13 else 14
  | .cellIndex _ => 12
  | .cell _ _ => 11
  | .slowSave _ => 10
  | .slowCli _ => 9
  | .slowHead _ => 8
  | .fastSave => 8
  | .fastCli => 7
  | .fastUdr => 6
  | .fastUcsra none | .slowUcsrb none => 4
  | .fastUcsra (some _) | .slowUcsrb (some _) => 3
  | .fastRestore | .slowRestore => 2
  | .ret => 1

/-- Steps left at a position, up to the loop head with nothing to read. -/
def posCost (rx tx : Ring Byte 64) : Pos → Nat
  | .construct | .init | .serialBegin | .uartBegin =>
      0
  | .setTimeout =>
      ledSetupSteps + 2 + loopCost rx
  | .loopHead =>
      loopCost rx
  | .availHead tail =>
      if rx.Empty then 0
      else if tail = rx.rd then readCost + 3
      else readCost + 1
  | .readHead => 6
  | .readTail _ => 5
  | .readIndex => 4
  | .readCell _ => 3
  | .readNext _ => 2
  | .readStore _ _ => 1
  | .translate _ =>
      sendCost + loopCost rx
  | .sendKey =>
      printCost .key 8 + 1 + loopCost rx
  | .print command bytes _ =>
      printCost command bytes.length + loopCost rx
  | .write command rest _ _ position =>
      writeCost tx position + (printCost command rest.length + loopCost rx)

def pcCost (rx tx : Ring Byte 64) : Pc → Nat
  | .code todo loaded continuation =>
      codeLength todo loaded + 1 + posCost rx tx continuation
  | .here position =>
      posCost rx tx position

theorem pcCost_code
    {todo : List Access}
    {loaded : Option Byte}
    {steps : Nat}
    (length : codeLength todo loaded = steps)
    (rx tx : Ring Byte 64)
    (continuation : Pos) :
    pcCost rx tx (.code todo loaded continuation) =
      steps + 1 + posCost rx tx continuation := by
  rw [pcCost, length]

/-- What is left to do, weighted so that every step but a wait uses some up. -/
def potential (m : Machine) : Nat :=
  3 * m.tx.occupancy + (if m.udre then 0 else 1) +
    unreadCost * m.rx.occupancy + pcCost m.rx m.tx m.pc

/--
Main waits: it spins on a full ring, or polls with nothing available.
-/
def waits (m : Machine) : Bool :=
  match m.pc with
  | .here .loopHead | .here (.availHead _) =>
      decide m.rx.Empty
  | .here (.write _ _ _ _ (.spin i)) | .here (.write _ _ _ _ (.spinSreg i))
  | .here (.write _ _ _ _ (.spinUdre i)) =>
      decide (i = m.tx.rd)
  | _ =>
      false

/-- The steps that are bounded: those of the relay except for waits. -/
def counted (m : Machine) : Action → Bool
  | .main => !m.waits
  | .dataRegisterEmpty | .shiftOut => true
  | .pinChange _ _ | .usartReceive _ _ => false

/-- A step that leaves the rings alone pays out of main's position. -/
theorem potential_of_same
    {m after : Machine}
    {steps : Nat}
    (rx : after.rx = m.rx)
    (tx : after.tx = m.tx)
    (udre : after.udre = m.udre)
    (cost :
      pcCost m.rx m.tx after.pc + steps ≤ pcCost m.rx m.tx m.pc) :
    after.potential + steps ≤ m.potential := by
  simp only [potential, rx, tx, udre]
  omega

theorem pays_codeStep
    {m : Machine}
    {todo : List Access}
    {loaded : Option Byte}
    {continuation : Pos}
    (ok : m.RelayOk)
    (pc : m.pc = .code todo loaded continuation) :
    (m.codeStep todo loaded continuation).potential + 1 ≤
      m.potential := by
  have code := ok.confinedCode pc
  have same : SameRelay m (m.codeStep todo loaded continuation) :=
    codeStep_sameRelay code.confined continuation
  refine potential_of_same same.rx same.tx same.udre ?_
  rw [pc]
  cases todo with
  | nil =>
      simp only [codeStep, pcCost]
      omega
  | cons access rest =>
      obtain ⟨left, held, after, reached, atLeft, _, shorter, _⟩ :=
        codeStep_confined code [] continuation
      rw [List.append_nil] at reached atLeft
      rw [reached, atLeft]
      simp only [pcCost]
      omega

theorem pays_pollStep
    {m : Machine}
    {position : Pos}
    (ok : m.RelayOk)
    (pc : m.pc = .here position)
    (polls : position matches .loopHead | .availHead _) :
    (m.pollStep position).potential + (if m.waits then 0 else 1) ≤
      m.potential := by
  have target := ok.position
  rw [PcOk, pc] at target
  cases position with
  | loopHead =>
      rw [pollStep, if_pos ok.isListening]
      refine potential_of_same rfl rfl rfl ?_
      rw [pc, waits, pc]
      by_cases empty : m.rx.Empty
      · simp [pcCost, posCost, loopCost, empty]
      · have fresh : ¬ m.rx.wr = m.rx.rd := fun same => empty same.symm
        simp [pcCost, posCost, loopCost, empty, fresh]
  | availHead tail =>
      obtain ⟨_, waiting⟩ := target
      rw [pollStep]
      split
      next available =>
        have apart := availableFrom_ne_zero_iff.mp available
        have nonempty := waiting apart
        refine potential_of_same rfl rfl rfl ?_
        rw [pc, waits, pc]
        rw [pcCost_code (codeLength_blinkLed (.inl rfl) 1000)]
        simp [pcCost, posCost, nonempty, apart, readCost]
      next unavailable =>
        have same : tail = m.rx.rd :=
          not_not.mp (mt availableFrom_ne_zero_iff.mpr unavailable)
        refine potential_of_same rfl rfl rfl ?_
        rw [pc, waits, pc]
        by_cases empty : m.rx.Empty <;>
          simp [pcCost, posCost, loopCost, empty, same]
  | _ =>
      contradiction

/-- Reading a byte turns its share into the work of sending it. -/
theorem pays_readStep
    {m : Machine}
    {position : Pos}
    (ok : m.RelayOk)
    (pc : m.pc = .here position)
    (reads :
      position matches .readHead | .readTail _ | .readIndex | .readCell _
        | .readNext _ | .readStore _ _) :
    (m.readStep position).1.potential + 1 ≤ m.potential := by
  have target := ok.position
  rw [PcOk, pc] at target
  have moves := fun (after : Machine) rx tx udre =>
    @potential_of_same m after 1 rx tx udre
  rw [pc] at moves
  cases position with
  | readHead =>
      rw [readStep, if_pos ok.isListening]
      exact moves _ rfl rfl rfl (by simp [pcCost, posCost])
  | readTail head =>
      obtain ⟨waiting, rfl⟩ := target
      have apart : ¬ m.rx.rd = m.rx.wr := waiting.nonempty
      rw [readStep, if_neg apart]
      exact moves _ rfl rfl rfl (by simp [pcCost, posCost])
  | readIndex | readCell index | readNext d =>
      exact moves _ rfl rfl rfl (by simp [readStep, pcCost, posCost])
  | readStore d head =>
      obtain ⟨waiting, _, rfl⟩ := target
      have shorter := Ring.occupancy_release waiting.nonempty
      have rx :
          (m.readStep (.readStore d m.rx.rd)).1.rx = m.rx.release := rfl
      have tx : (m.readStep (.readStore d m.rx.rd)).1.tx = m.tx := rfl
      have udre :
          (m.readStep (.readStore d m.rx.rd)).1.udre = m.udre := rfl
      have atMost : loopCost m.rx.release ≤ readCost + 2 := by
        rw [loopCost]
        split <;> omega
      simp only [potential, rx, tx, udre, pc]
      simp only [readStep, pcCost, posCost, shorter, unreadCost,
        Nat.mul_add, Nat.mul_one]
      omega
  | _ =>
      contradiction

/-- Writing one more byte of a buffer has its share of the buffer's cost. -/
theorem printCost_succ
    (command : Command)
    (left : Nat) :
    printCost command (left + 1) = printCost command left + byteCost := by
  cases command <;> simp only [printCost, byteCost] <;> omega

theorem pays_sendStep
    {m : Machine}
    {position : Pos}
    (pc : m.pc = .here position)
    (sends :
      position matches .translate _ | .sendKey | .print _ _ _
        | .write _ _ _ _ .ret) :
    (m.sendStep position).1.potential + 1 ≤ m.potential := by
  have moves := fun (after : Machine) rx tx udre =>
    @potential_of_same m after 1 rx tx udre
  rw [pc] at moves
  cases position with
  | translate ret =>
      refine moves _ rfl rfl rfl ?_
      simp only [sendStep]
      split
      · rw [pcCost_code (codeLength_blinkLed (.inr rfl) 1000)]
        simp only [pcCost, posCost, sendCost]
        omega
      · simp only [pcCost, posCost, sendCost]
        omega
  | sendKey =>
      refine moves _ rfl rfl rfl ?_
      simp only [sendStep, pcCost, posCost, Vector.length_toList]
      omega
  | print command buffer n =>
      cases buffer with
      | nil =>
          cases command <;> refine moves _ rfl rfl rfl ?_ <;>
            simp only [sendStep, pcCost, posCost, Vector.length_toList,
              printCost, List.length_nil] <;>
            omega
      | cons c rest =>
          have entered :
              (m.sendStep (.print command (c :: rest) n)).1 =
                { m with
                  pc := .here (.write command rest n c .compareHead) } := by
            cases command <;> rfl
          rw [entered]
          refine moves _ rfl rfl rfl ?_
          simp only [pcCost, posCost, List.length_cons, printCost_succ,
            writeCost, byteCost]
          omega
  | write command rest n c position =>
      cases position with
      | ret =>
          refine moves _ rfl rfl rfl ?_
          simp only [sendStep, pcCost, posCost, writeCost]
          omega
      | _ =>
          contradiction
  | _ =>
      contradiction

/-- Steps of `write` that leave the rings and UDRE alone. -/
theorem potential_write_moves
    {m after : Machine}
    {command : Command}
    {rest : List Byte}
    {n steps : Nat}
    {c : Byte}
    {position next : WriteAt}
    (pc : m.pc = .here (.write command rest n c position))
    (rx : after.rx = m.rx)
    (tx : after.tx = m.tx)
    (udre : after.udre = m.udre)
    (afterPc : after.pc = .here (.write command rest n c next))
    (cost : writeCost m.tx next + steps ≤ writeCost m.tx position) :
    after.potential + steps ≤ m.potential := by
  refine potential_of_same rx tx udre ?_
  rw [pc, afterPc]
  simp only [pcCost, posCost]
  omega

theorem pays_writeStep
    {m : Machine}
    {command : Command}
    {rest : List Byte}
    {n : Nat}
    {c : Byte}
    {position : WriteAt}
    (ok : m.RelayOk)
    (pc : m.pc = .here (.write command rest n c position))
    (notRet : position ≠ .ret) :
    (m.writeStep (.write command rest n c) c position).1.potential +
        (if m.waits then 0 else 1) ≤
      m.potential := by
  have target := ok.position
  rw [PcOk, pc] at target
  rw [waits, pc]
  have moves := fun (after : Machine) next rx tx udre =>
    @potential_write_moves m after command rest n
      (if false then 0 else 1) c position next pc rx tx udre
  cases position with
  | compareHead | nextIndex | cellIndex i | fastSave | fastCli
  | slowSave i | slowCli i | fastRestore | slowRestore =>
      exact moves _ _ rfl rfl rfl rfl (by simp [writeCost])
  | compareTail head | testUdre =>
      rw [writeStep]
      split <;> exact moves _ _ rfl rfl rfl rfl (by simp [writeCost])
  | fastUdr =>
      have udreBefore : m.udre = true := target.2
      have udreAfter :
          (m.writeStep (.write command rest n c) c .fastUdr).1.udre =
            false :=
        IoFile.bit_force_same _ _ (by decide) _
      simp only [potential, udreBefore, udreAfter, pc]
      simp only [writeStep, pcCost, posCost, writeCost, ↓reduceIte,
        Bool.false_eq_true]
      omega
  | fastUcsra loaded =>
      cases loaded with
      | none =>
          exact moves _ _ rfl rfl rfl rfl (by simp [writeCost])
      | some ucsra =>
          exact moves _ _ rfl rfl (IoFile.bit_store_udre _ _ _) rfl
            (by simp [writeCost])
  | spin i =>
      have full : i = m.tx.rd ↔ m.tx.Full := by
        rw [show i = next m.tx.wr from target]
        rfl
      rw [writeStep]
      split
      next isFull =>
        refine potential_write_moves pc rfl rfl rfl rfl ?_
        simp [writeCost, isFull, full.mp isFull]
      next room =>
        refine potential_write_moves pc rfl rfl rfl rfl ?_
        simp [writeCost, room]
  | spinSreg i =>
      have full : i = m.tx.rd ↔ m.tx.Full := by
        rw [show i = next m.tx.wr from target]
        rfl
      have flag := ok.sregI_of_outside pc rfl rfl
      rw [writeStep, if_neg (by simp [flag])]
      refine potential_write_moves pc rfl rfl rfl rfl ?_
      by_cases isFull : m.tx.Full
      · simp [writeCost, isFull, full.mpr isFull]
      · simp [writeCost, isFull, mt full.mp isFull]
  | spinUdre i =>
      exact target.elim
  | cell i head =>
      have occupancy :
          (m.writeStep (.write command rest n c) c
            (.cell i head)).1.tx.occupancy = m.tx.occupancy := rfl
      have udre :
          (m.writeStep (.write command rest n c) c
            (.cell i head)).1.udre = m.udre := rfl
      simp only [potential, occupancy, udre, pc]
      simp only [writeStep, pcCost, posCost, writeCost,
        Bool.false_eq_true, ↓reduceIte]
      omega
  | slowHead i =>
      obtain ⟨⟨rfl, room⟩, _⟩ := target
      have longer := Ring.occupancy_commit room
      have tx :
          (m.writeStep (.write command rest n c) c
            (.slowHead (next m.tx.wr))).1.tx = m.tx.commit := rfl
      have udre :
          (m.writeStep (.write command rest n c) c
            (.slowHead (next m.tx.wr))).1.udre = m.udre := rfl
      simp only [potential, tx, udre, longer, pc]
      simp only [writeStep, pcCost, posCost, writeCost,
        Bool.false_eq_true, ↓reduceIte]
      omega
  | slowUcsrb loaded =>
      cases loaded with
      | none =>
          exact moves _ _ rfl rfl rfl rfl (by simp [writeCost])
      | some ucsrb =>
          exact moves _ _ rfl rfl
            (IoFile.bit_store_other _ (by decide) _ _) rfl
            (by simp [writeCost])
  | ret =>
      exact (notRet rfl).elim

/-- Every step of main but a wait uses up some of the potential. -/
theorem pays_mainStep
    {m : Machine}
    (ok : m.RelayOk) :
    m.mainStep.1.potential + (if m.waits then 0 else 1) ≤
      m.potential := by
  have target := ok.position
  rw [mainStep]
  cases pc : m.pc with
  | code todo loaded continuation =>
      rw [waits, pc]
      exact pays_codeStep ok pc
  | here position =>
      rw [PcOk, pc] at target
      cases position <;> dsimp only
      case construct | init | serialBegin | uartBegin =>
          exact target.elim
      case setTimeout =>
          rw [waits, pc]
          refine potential_of_same rfl rfl rfl ?_
          rw [pc]
          simp only [setupStep]
          rw [pcCost_code codeLength_ledSetup]
          simp only [pcCost, posCost, Bool.false_eq_true, ↓reduceIte]
          omega
      case loopHead | availHead =>
          exact pays_pollStep ok pc rfl
      case readHead | readTail | readIndex | readCell
          | readNext | readStore =>
          rw [waits, pc]
          exact pays_readStep ok pc rfl
      case translate | sendKey | print =>
          rw [waits, pc]
          exact pays_sendStep pc rfl
      case write command rest n c position =>
          by_cases returned : position = .ret
          · subst returned
            rw [waits, pc]
            exact pays_sendStep pc rfl
          · rw [sendStep]
            · exact pays_writeStep ok pc returned
            · exact returned

/-- Room in the ring costs a spinning main at most one more step. -/
theorem pcCost_release
    (rx tx : Ring Byte 64)
    (pc : Pc) :
    pcCost rx tx.release pc ≤ pcCost rx tx pc + 1 := by
  have write : ∀ position,
      writeCost tx.release position ≤ writeCost tx position + 1 := by
    intro position
    cases position with
    | spinSreg i =>
        simp only [writeCost]
        split <;> split <;> omega
    | fastUcsra loaded | slowUcsrb loaded =>
        cases loaded <;> exact Nat.le_succ _
    | _ =>
        exact Nat.le_succ _
  have position : ∀ position,
      posCost rx tx.release position ≤ posCost rx tx position + 1 := by
    intro position
    cases position with
    | write command rest n c position =>
        have bound := write position
        simp only [posCost]
        omega
    | _ =>
        exact Nat.le_succ _
  cases pc with
  | code todo loaded continuation =>
      have bound := position continuation
      simp only [pcCost]
      omega
  | here at' =>
      exact position at'

/-- Without an arrival no step raises the potential, and counted ones lower it. -/
theorem pays
    {m : Machine}
    {action : Action}
    {result : Machine × List Event}
    (ok : m.RelayOk)
    (noArrival : action.isArrival = false)
    (stepped : m.step? action = some result) :
    result.1.potential + (if m.counted action then 1 else 0) ≤
      m.potential := by
  cases step?_inversion stepped with
  | main =>
      have paid := pays_mainStep ok
      rw [counted]
      cases waiting : m.waits <;> simp_all
  | pinChange =>
      contradiction
  | dataRegisterEmpty enabled udrie udre =>
      have notEnabling :=
        notEnabling_of_notOff (ok.ready.sreg.not_off enabled)
      have nonempty := (ok.udrie notEnabling).mp udrie
      have shorter := Ring.occupancy_release nonempty
      have more := pcCost_release m.rx m.tx m.pc
      have udreBefore : m.udre = true := udre
      have tx : (m.interrupt txUdrEmptyIrq).1.tx = m.tx.release := rfl
      have rx : (m.interrupt txUdrEmptyIrq).1.rx = m.rx := rfl
      have pc : (m.interrupt txUdrEmptyIrq).1.pc = m.pc := rfl
      have atMost :
          (if (m.interrupt txUdrEmptyIrq).1.udre then 0 else 1) ≤ 1 := by
        split <;> omega
      simp only [potential, tx, rx, pc, udreBefore, shorter, counted,
        ↓reduceIte]
      omega
  | usartReceive _ _ c parityError =>
      obtain ⟨after, reached, kept, rx, _⟩ :=
        usartReceive_kept m c parityError
      rw [reached]
      refine potential_of_same rx kept.tx kept.udre ?_
      rw [kept.pc]
      exact Nat.le_refl _
  | shiftOut udre =>
      have udreBefore : m.udre = false := udre
      have udreAfter :
          Machine.udre
              { m with io := m.io.force .ucsr0a udre0 true } = true :=
        IoFile.bit_force_same _ _ (by decide) _
      simp only [potential, udreBefore, udreAfter, counted,
        Bool.false_eq_true, ↓reduceIte]
      omega

end Machine

end KeyboardEmulator
