import KeyboardEmulator.Firmware

namespace KeyboardEmulator

open BootKeyboard (Byte)
open RingBuffer (Ring next)

/-!
# What handlers change

A step other than main's leaves main's position and locals alone, and each
handler works on one ring.  Of the registers a handler changes status bits of
`UCSR0A`, the receive mask bit, which ends set, and UDRIE, which it can only
clear.
-/

namespace Machine

/-- What every handler leaves as it was. -/
structure HandlerFrame (before after : Machine) : Prop where
  pc : after.pc = before.pc
  oldSreg : after.oldSreg = before.oldSreg
  sregI : after.sregI = before.sregI
  keyboardBuffer : after.keyboardBuffer = before.keyboardBuffer
  activeObject : after.activeObject = before.activeObject
  gccVersion : after.gccVersion = before.gccVersion
  receivePin : after.uart.receivePin = before.uart.receivePin
  pcintMaskreg : after.uart.pcintMaskreg = before.uart.pcintMaskreg
  pcintMaskvalue : after.uart.pcintMaskvalue = before.uart.pcintMaskvalue
  inverseLogic : after.uart.inverseLogic = before.uart.inverseLogic

/-- A handler writes to registers, to a ring and to the overflow flag. -/
theorem HandlerFrame.written
    (m : Machine)
    (io : IoFile)
    (rx serialRx tx : Ring Byte 64)
    (overflow : Bool) :
    HandlerFrame m
      { m with
        io := io
        rx := rx
        serialRx := serialRx
        tx := tx
        uart := { m.uart with bufferOverflow := overflow } } :=
  ⟨rfl, rfl, rfl, rfl, rfl, rfl, rfl, rfl, rfl, rfl⟩

theorem HandlerFrame.refl (m : Machine) : HandlerFrame m m :=
  .written m _ _ _ _ _

theorem HandlerFrame.trans
    {first second third : Machine}
    (early : HandlerFrame first second)
    (late : HandlerFrame second third) :
    HandlerFrame first third where
  pc := late.pc.trans early.pc
  oldSreg := late.oldSreg.trans early.oldSreg
  sregI := late.sregI.trans early.sregI
  keyboardBuffer := late.keyboardBuffer.trans early.keyboardBuffer
  activeObject := late.activeObject.trans early.activeObject
  gccVersion := late.gccVersion.trans early.gccVersion
  receivePin := late.receivePin.trans early.receivePin
  pcintMaskreg := late.pcintMaskreg.trans early.pcintMaskreg
  pcintMaskvalue := late.pcintMaskvalue.trans early.pcintMaskvalue
  inverseLogic := late.inverseLogic.trans early.inverseLogic

theorem setRxIntMsk_frame (m : Machine) (enable : Bool) :
    HandlerFrame m (m.setRxIntMsk enable) :=
  .written m _ _ _ _ _

theorem storeReceived_frame (m : Machine) (d : Byte) :
    HandlerFrame m (m.storeReceived d).1 := by
  rw [storeReceived]
  split <;> exact .written m _ _ _ _ _

theorem recv_frame
    (m : Machine)
    (startLevel : Bool)
    (samples : Vector Bool 8) :
    HandlerFrame m (m.recv startLevel samples).1 := by
  rw [recv]
  split
  · exact ((setRxIntMsk_frame m false).trans
      (storeReceived_frame _ _)).trans (setRxIntMsk_frame _ true)
  · exact .refl m

theorem handleInterrupt_frame
    (m : Machine)
    (startLevel : Bool)
    (samples : Vector Bool 8) :
    HandlerFrame m (m.handleInterrupt startLevel samples).1 := by
  rw [handleInterrupt]
  split
  · exact recv_frame m startLevel samples
  · exact .refl m

theorem txUdrEmptyIrq_frame (m : Machine) :
    HandlerFrame m m.txUdrEmptyIrq.1 :=
  .written m _ _ _ _ _

theorem rxCompleteIrq_frame
    (m : Machine)
    (c : Byte)
    (parityError : Bool) :
    HandlerFrame m (m.rxCompleteIrq c parityError) := by
  rw [rxCompleteIrq]
  split
  · simp only
    split <;> exact .written m _ _ _ _ _
  · exact .written m _ _ _ _ _

/-- A delivered interrupt keeps what its handler keeps, and the I flag set. -/
theorem interrupt_frame
    {m : Machine}
    (handler : Machine → Machine × List Event)
    (enabled : m.sregI = true)
    (kept :
      HandlerFrame { m with sregI := false }
        (handler { m with sregI := false }).1) :
    HandlerFrame m (m.interrupt handler).1 where
  pc := kept.pc
  oldSreg := kept.oldSreg
  sregI := enabled.symm
  keyboardBuffer := kept.keyboardBuffer
  activeObject := kept.activeObject
  gccVersion := kept.gccVersion
  receivePin := kept.receivePin
  pcintMaskreg := kept.pcintMaskreg
  pcintMaskvalue := kept.pcintMaskvalue
  inverseLogic := kept.inverseLogic

/-- Main's position and locals only change in main's own steps. -/
theorem step?_frame
    {before : Machine}
    {action : Action}
    {result : Machine × List Event}
    (stepped : before.step? action = some result)
    (notMain : action ≠ .main) :
    HandlerFrame before result.1 := by
  cases step?_inversion stepped with
  | main =>
      exact (notMain rfl).elim
  | pinChange enabled _ startLevel samples =>
      exact interrupt_frame
        (fun entered => entered.handleInterrupt startLevel samples)
        enabled (handleInterrupt_frame _ startLevel samples)
  | dataRegisterEmpty enabled =>
      exact interrupt_frame txUdrEmptyIrq enabled (txUdrEmptyIrq_frame _)
  | usartReceive enabled _ c parityError =>
      exact interrupt_frame
        (fun entered => (entered.rxCompleteIrq c parityError, []))
        enabled (rxCompleteIrq_frame _ c parityError)
  | shiftOut =>
      exact .written before _ _ _ _ _

/-- The variables that decide whether and how pin 7 is received. -/
structure SameReceiver (before after : Machine) : Prop where
  receivePin : after.uart.receivePin = before.uart.receivePin
  inverseLogic : after.uart.inverseLogic = before.uart.inverseLogic
  maskreg : after.uart.pcintMaskreg = before.uart.pcintMaskreg
  maskvalue : after.uart.pcintMaskvalue = before.uart.pcintMaskvalue
  activeObject : after.activeObject = before.activeObject

theorem SameReceiver.of_eq
    {before after : Machine}
    (uart : after.uart = before.uart)
    (activeObject : after.activeObject = before.activeObject) :
    SameReceiver before after := by
  refine ⟨?_, ?_, ?_, ?_, activeObject⟩ <;> rw [uart]

theorem HandlerFrame.sameReceiver
    {before after : Machine}
    (frame : HandlerFrame before after) :
    SameReceiver before after :=
  ⟨frame.receivePin, frame.inverseLogic, frame.pcintMaskreg,
    frame.pcintMaskvalue, frame.activeObject⟩

/-! ## Registers -/

/-- Once the object listens, its mask is the bit of the UART RX pin. -/
def MaskOk (m : Machine) : Prop :=
  m.activeObject = some .uart →
    m.uart.pcintMaskreg = .pcmsk2 ∧ m.uart.pcintMaskvalue = bv 7

theorem MaskOk.congr
    {before after : Machine}
    (mask : before.MaskOk)
    (same : SameReceiver before after) :
    after.MaskOk := by
  rw [MaskOk, same.activeObject, same.maskreg, same.maskvalue]
  exact mask

/-- `recv` masks its interrupt on the way in and unmasks it on the way out. -/
theorem recv_io
    (m : Machine)
    (startLevel : Bool)
    (samples : Vector Bool 8) :
    (m.recv startLevel samples).1.io =
      if m.startBit startLevel then
        ((m.setRxIntMsk false).setRxIntMsk true).io
      else
        m.io := by
  rw [recv]
  split
  · simp only [storeReceived]
    split <;> rfl
  · rfl

/-- Masking and unmasking leaves the masked bit set and the others alone. -/
theorem bit_setRxIntMsk_twice
    {m : Machine}
    (maskreg : m.uart.pcintMaskreg = .pcmsk2)
    (maskvalue : m.uart.pcintMaskvalue = bv 7)
    (reg : Reg)
    (b : Nat) :
    ((m.setRxIntMsk false).setRxIntMsk true).io.bit reg b =
      (m.io.bit reg b || (decide (reg = .pcmsk2) && decide (b = 7))) := by
  by_cases same : reg = .pcmsk2
  · subst same
    have plain : Reg.pcmsk2 ≠ .ucsr0a := by decide
    simp only [setRxIntMsk, maskreg, maskvalue, ↓reduceIte,
      Bool.false_eq_true, IoFile.store_same _ plain,
      BitVec.getLsbD_or,
      BitVec.getLsbD_and, BitVec.getLsbD_not, getLsbD_bv, IoFile.bit]
    by_cases inside : b < 8
    · by_cases isMask : b = 7 <;> simp [inside, isMask]
    · have apart : b ≠ 7 := by omega
      simp [inside, apart, BitVec.getLsbD_of_ge _ _ (Nat.le_of_not_lt inside)]
  · simp [setRxIntMsk, maskreg, same, IoFile.bit_store_other]

/-- Reception changes no register bit except that the mask bit ends set. -/
theorem bit_handleInterrupt
    {m : Machine}
    (mask : m.MaskOk)
    (startLevel : Bool)
    (samples : Vector Bool 8)
    (reg : Reg)
    (b : Nat) :
    (m.handleInterrupt startLevel samples).1.io.bit reg b =
        m.io.bit reg b ∨
      (reg = .pcmsk2 ∧ b = 7 ∧
        (m.handleInterrupt startLevel samples).1.io.bit reg b =
          true) := by
  rw [handleInterrupt]
  split
  next active =>
    obtain ⟨maskreg, maskvalue⟩ := mask active
    rw [recv_io]
    split
    · rw [bit_setRxIntMsk_twice maskreg maskvalue]
      by_cases isMask : reg = .pcmsk2 ∧ b = 7
      · right
        simp [isMask]
      · left
        rw [← Bool.decide_and, decide_eq_false isMask, Bool.or_false]
    · exact .inl rfl
  next =>
    exact .inl rfl

/-- UDRIE is the only bit outside `UCSR0A` the transmit handler changes. -/
theorem bit_txUdrEmptyIrq
    (m : Machine)
    {reg : Reg}
    (plain : reg ≠ .ucsr0a)
    (b : Nat) :
    m.txUdrEmptyIrq.1.io.bit reg b = m.io.bit reg b ∨
      (reg = .ucsr0b ∧ b = udrie0 ∧
        m.txUdrEmptyIrq.1.io.bit reg b = false) := by
  simp only [txUdrEmptyIrq]
  split
  · by_cases same : reg = .ucsr0b
    · subst same
      by_cases isUdrie : b = udrie0
      · right
        refine ⟨rfl, isUdrie, ?_⟩
        rw [IoFile.bit_store_same _ plain, isUdrie,
          BitVec.getLsbD_and, BitVec.getLsbD_not, getLsbD_bv]
        simp [udrie0]
      · left
        rw [IoFile.bit_store_same _ plain, IoFile.store_other _ plain,
          BitVec.getLsbD_and, BitVec.getLsbD_not, getLsbD_bv]
        by_cases inside : b < 8
        · simp [isUdrie, inside, IoFile.bit, IoFile.force]
        · simp [IoFile.bit,
            BitVec.getLsbD_of_ge _ _ (Nat.le_of_not_lt inside)]
    · left
      rw [IoFile.bit_store_other _ same, IoFile.bit_store_other _ plain,
        IoFile.bit_force_other _ plain]
  · left
    rw [IoFile.bit_store_other _ plain, IoFile.bit_force_other _ plain]

/-- The bits outside `UCSR0A` that a step other than main's can change. -/
theorem step?_bit
    {m : Machine}
    {action : Action}
    {result : Machine × List Event}
    (mask : m.MaskOk)
    (stepped : m.step? action = some result)
    (notMain : action ≠ .main)
    {reg : Reg}
    (plain : reg ≠ .ucsr0a)
    (b : Nat) :
    result.1.io.bit reg b = m.io.bit reg b ∨
      (reg = .pcmsk2 ∧ b = 7 ∧ result.1.io.bit reg b = true) ∨
      (reg = .ucsr0b ∧ b = udrie0 ∧ result.1.io.bit reg b = false) := by
  cases step?_inversion stepped with
  | main =>
      exact (notMain rfl).elim
  | pinChange _ _ startLevel samples =>
      have entered : MaskOk { m with sregI := false } := mask
      rcases bit_handleInterrupt entered startLevel samples reg b with
        same | masked
      · exact .inl same
      · exact .inr (.inl masked)
  | dataRegisterEmpty =>
      rcases bit_txUdrEmptyIrq { m with sregI := false } plain b with
        same | cleared
      · exact .inl same
      · exact .inr (.inr cleared)
  | usartReceive _ _ c parityError =>
      left
      simp only [interrupt, rxCompleteIrq]
      split
      · split <;> exact IoFile.bit_force_other _ plain _ _ _
      · exact IoFile.bit_force_other _ plain _ _ _
  | shiftOut =>
      left
      exact IoFile.bit_force_other _ plain _ _ _

/-- Registers whose bits no handler changes keep their whole contents. -/
theorem step?_reg
    {m : Machine}
    {action : Action}
    {result : Machine × List Event}
    (mask : m.MaskOk)
    (stepped : m.step? action = some result)
    (notMain : action ≠ .main)
    {reg : Reg}
    (plain : reg ≠ .ucsr0a)
    (notMask : reg ≠ .pcmsk2)
    (notControl : reg ≠ .ucsr0b) :
    result.1.io reg = m.io reg := by
  apply BitVec.eq_of_getLsbD_eq
  intro b _
  rcases step?_bit mask stepped notMain plain b with
    same | ⟨isMask, _⟩ | ⟨isControl, _⟩
  · exact same
  · exact (notMask isMask).elim
  · exact (notControl isControl).elim

end Machine

end KeyboardEmulator
