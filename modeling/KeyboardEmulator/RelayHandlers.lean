import KeyboardEmulator.RelayMain

namespace KeyboardEmulator

open BootKeyboard (Byte)
open RingBuffer (Ring next)

/-!
# The handlers refine the relay

A handler moves the end of a ring that main does not move, so what main has
read stays true; what it does to the ring is one step of the relay.
-/

namespace Machine

/-- Handlers only add received bytes and take queued ones. -/
structure Advances (before after : Machine) : Prop where
  pc : after.pc = before.pc
  keyboardBuffer : after.keyboardBuffer = before.keyboardBuffer
  rxRd : after.rx.rd = before.rx.rd
  rxStored :
    ¬ before.rx.Empty →
      ¬ after.rx.Empty ∧ after.rx.front = before.rx.front
  txWr : after.tx.wr = before.tx.wr
  txCells : after.tx.cells = before.tx.cells
  txRoom : ¬ before.tx.Full → ¬ after.tx.Full
  txEmpty :
    before.tx.Empty →
      after.tx.Empty ∧ (before.udre = true → after.udre = true)
  enabling :
    before.pc.enabling = true → ¬ before.tx.Empty → ¬ after.tx.Empty

/-- What main has read stays true while handlers work. -/
theorem WriteOk.advance
    {before after : Machine}
    (advances : Advances before after)
    {c : Byte}
    {position : WriteAt}
    (enabling :
      position.enabling = true → before.pc.enabling = true)
    (ok : before.WriteOk c position) :
    after.WriteOk c position := by
  have free : ∀ {i}, SlotFree before.tx i → SlotFree after.tx i := by
    intro i ⟨index, room⟩
    exact ⟨advances.txWr ▸ index, advances.txRoom room⟩
  cases position with
  | compareHead | nextIndex | slowRestore | ret =>
      trivial
  | compareTail head =>
      exact Eq.trans ok advances.txWr.symm
  | testUdre | fastUcsra loaded | fastRestore =>
      exact (advances.txEmpty ok).1
  | fastSave | fastCli | fastUdr =>
      exact ⟨(advances.txEmpty ok.1).1, (advances.txEmpty ok.1).2 ok.2⟩
  | spin i | spinSreg i =>
      rw [WriteOk, advances.txWr]
      exact ok
  | spinUdre i =>
      exact ok
  | cellIndex i =>
      exact free ok
  | cell i head =>
      exact ⟨free ok.1, ok.2.trans advances.txWr.symm⟩
  | slowSave i | slowCli i | slowHead i =>
      refine ⟨free ok.1, ?_⟩
      simp only [advances.txWr, advances.txCells]
      exact ok.2
  | slowUcsrb loaded =>
      exact advances.enabling (enabling rfl) ok

theorem PosOk.advance
    {before after : Machine}
    (advances : Advances before after)
    {position : Pos}
    (enabling :
      position.enabling = true → before.pc.enabling = true)
    (ok : before.PosOk position) :
    after.PosOk position := by
  have waits :
      ByteWaits before.keyboardBuffer before.rx →
        ByteWaits after.keyboardBuffer after.rx :=
    fun waits =>
      ⟨advances.keyboardBuffer.trans waits.cleared,
        (advances.rxStored waits.nonempty).1⟩
  have front :
      ByteWaits before.keyboardBuffer before.rx →
        after.rx.front = before.rx.front :=
    fun waits => (advances.rxStored waits.nonempty).2
  cases position with
  | construct | init | serialBegin | uartBegin =>
      exact ok
  | setTimeout | loopHead | sendKey | print command buffer n =>
      trivial
  | availHead tail =>
      refine ⟨advances.keyboardBuffer.trans ok.1, fun apart => ?_⟩
      rw [advances.rxRd] at apart
      exact (advances.rxStored (ok.2 apart)).1
  | readHead | readIndex =>
      exact waits ok
  | readTail head | readCell index =>
      exact ⟨waits ok.1, ok.2.trans advances.rxRd.symm⟩
  | readNext d =>
      exact ⟨waits ok.1, ok.2.trans (front ok.1).symm⟩
  | readStore d head =>
      exact ⟨waits ok.1, ok.2.1.trans (front ok.1).symm,
        ok.2.2.trans advances.rxRd.symm⟩
  | translate ret =>
      exact ⟨advances.keyboardBuffer.trans ok.1, ok.2⟩
  | write command rest n c position =>
      exact WriteOk.advance advances enabling ok

theorem PcOk.advance
    {before after : Machine}
    (advances : Advances before after)
    (ok : before.PcOk) :
    after.PcOk := by
  rw [PcOk] at ok ⊢
  rw [advances.pc]
  cases pc : before.pc with
  | code todo loaded continuation =>
      rw [pc] at ok
      refine ⟨ok.1, PosOk.advance advances (fun enabling => ?_) ok.2⟩
      have followsLed := ok.1
      cases continuation <;> contradiction
  | here position =>
      rw [pc] at ok
      exact PosOk.advance advances (fun enabling => by rw [pc]; exact enabling)
        ok

/-- What main owes does not depend on the rings. -/
theorem Advances.relay
    {before after : Machine}
    (advances : Advances before after) :
    after.relay =
      { before.relay with
        unread := after.rx.contents
        queued := after.tx.contents } := by
  simp only [Machine.relay, advances.pc, advances.keyboardBuffer]

/-- Everything of the relay but the receive ring and the overflow flag. -/
structure KeptByReception (before after : Machine) : Prop where
  pc : after.pc = before.pc
  keyboardBuffer : after.keyboardBuffer = before.keyboardBuffer
  tx : after.tx = before.tx
  udre : after.udre = before.udre
  udrie : after.udrie = before.udrie

/-- What a pin-change interrupt does while `uart` listens. -/
inductive Reception
    (m : Machine)
    (d : Byte)
    (result : Machine × List Event) : Bool → Prop where
  /-- no start bit on the line -/
  | idle
      (rx : result.1.rx = m.rx)
      (overflow : result.1.uart.bufferOverflow = m.uart.bufferOverflow)
      (events : result.2 = []) :
      Reception m d result true
  | store
      (room : ¬ m.rx.Full)
      (rx : result.1.rx = (m.rx.fill d).commit)
      (overflow : result.1.uart.bufferOverflow = m.uart.bufferOverflow)
      (events : result.2 = [.stored d]) :
      Reception m d result false
  | drop
      (full : m.rx.Full)
      (rx : result.1.rx = m.rx)
      (overflow : result.1.uart.bufferOverflow = true)
      (events : result.2 = [.dropped d]) :
      Reception m d result false

/-- Reception leaves the transmit side alone. -/
theorem reception_kept
    {m : Machine}
    (listening : m.Listening)
    (startLevel : Bool)
    (samples : Vector Bool 8) :
    KeptByReception m
      (m.interrupt
        (fun entered =>
          entered.handleInterrupt startLevel samples)).1 := by
  have mask : MaskOk { m with sregI := false } :=
    fun _ => ⟨listening.maskreg, listening.maskvalue⟩
  have frame :=
    handleInterrupt_frame { m with sregI := false } startLevel samples
  have bits := bit_handleInterrupt mask startLevel samples
  refine ⟨frame.pc, frame.keyboardBuffer, ?_, ?_, ?_⟩
  · simp only [interrupt, handleInterrupt, listening.active, recv,
      storeReceived]
    split
    · split <;> rfl
    · rfl
  · rcases bits .ucsr0a udre0 with same | ⟨isMask, _⟩
    · exact same
    · contradiction
  · rcases bits .ucsr0b udrie0 with same | ⟨isMask, _⟩
    · exact same
    · contradiction

/-- An arrived byte is stored if there is room, else noted as lost. -/
theorem reception
    {m : Machine}
    (listening : m.Listening)
    (startLevel : Bool)
    (samples : Vector Bool 8) :
    Reception m (SoftwareSerial.sampleByte samples)
      (m.interrupt
        (fun entered => entered.handleInterrupt startLevel samples))
      startLevel := by
  have active := listening.active
  have plain := listening.inverseLogic
  cases startLevel with
  | true =>
      simp only [interrupt, handleInterrupt, active, recv, startBit, plain,
        Bool.false_eq_true, Bool.not_true, ↓reduceIte]
      exact .idle rfl rfl rfl
  | false =>
      simp only [interrupt, handleInterrupt, active, recv, startBit, plain,
        Bool.false_eq_true, Bool.not_false, ↓reduceIte, storeReceived]
      split
      next room =>
        exact .store room rfl rfl rfl
      next full =>
        exact .drop (not_not.mp full) rfl rfl rfl

/-- Reception only adds to the receive ring. -/
theorem KeptByReception.advances
    {before after : Machine}
    (kept : KeptByReception before after)
    (rxRd : after.rx.rd = before.rx.rd)
    (rxStored :
      ¬ before.rx.Empty →
        ¬ after.rx.Empty ∧ after.rx.front = before.rx.front) :
    Advances before after where
  pc := kept.pc
  keyboardBuffer := kept.keyboardBuffer
  rxRd := rxRd
  rxStored := rxStored
  txWr := by rw [kept.tx]
  txCells := by rw [kept.tx]
  txRoom := by
    rw [kept.tx]
    exact id
  txEmpty empty := by
    rw [kept.tx, kept.udre]
    exact ⟨empty, id⟩
  enabling _ := by
    rw [kept.tx]
    exact id

theorem KeptByReception.udrieFollows
    {before after : Machine}
    (kept : KeptByReception before after)
    (follows : before.UdrieFollows) :
    after.UdrieFollows := by
  rw [UdrieFollows, kept.pc, kept.udrie, kept.tx]
  exact follows

theorem Simulates.pinChange
    {m : Machine}
    (ok : m.RelayOk)
    (listening : m.Listening)
    (startLevel : Bool)
    (samples : Vector Bool 8) :
    Simulates m
      (m.interrupt
        (fun entered =>
          entered.handleInterrupt startLevel samples)) := by
  have kept := reception_kept listening startLevel samples
  have outcome := reception listening startLevel samples
  revert kept outcome
  generalize m.interrupt
    (fun entered =>
      entered.handleInterrupt startLevel samples) = result
  intro kept outcome
  have udrie := kept.udrieFollows ok.udrie
  cases outcome with
  | idle rx overflow events =>
      have advances := kept.advances (by rw [rx]) (by
        rw [rx]
        exact fun nonempty => ⟨nonempty, rfl⟩)
      refine ⟨ok.position.advance advances, udrie, ?_, none, ?_, events⟩
      · simp [overflow, events]
      · rw [advances.relay, rx, kept.tx]
        exact .stutter
  | store room rx overflow events =>
      have advances := kept.advances (by rw [rx]; rfl) (by
        rw [rx]
        exact fun nonempty =>
          ⟨Ring.not_empty_commit room, Ring.front_fill_commit nonempty _⟩)
      refine ⟨ok.position.advance advances, udrie, ?_,
        some (.stored (SoftwareSerial.sampleByte samples)), ?_, events⟩
      · simp [overflow, events, Event.drops]
      · have notFull : m.relay.unread.length < ringCapacity := by
          have bound := m.rx.occupancy_lt
          have apart := mt Ring.full_iff_occupancy.mpr room
          simp only [Machine.relay, Ring.length_contents, ringCapacity]
          omega
        rw [advances.relay, rx, kept.tx, Ring.contents_fill_commit room]
        exact .store _ notFull
  | drop full rx overflow events =>
      have advances := kept.advances (by rw [rx]) (by
        rw [rx]
        exact fun nonempty => ⟨nonempty, rfl⟩)
      refine ⟨ok.position.advance advances, udrie, ?_,
        some (.dropped (SoftwareSerial.sampleByte samples)), ?_, events⟩
      · simp [overflow, events, Event.drops]
      · have isFull : m.relay.unread.length = ringCapacity := by
          have exact := Ring.full_iff_occupancy.mp full
          simp only [Machine.relay, Ring.length_contents, ringCapacity]
          omega
        rw [advances.relay, rx, kept.tx]
        exact .drop _ isFull

/-- UDRIE lags behind the ring only where interrupts are off. -/
theorem notEnabling_of_notOff
    {m : Machine}
    (notOff : ¬ m.InterruptsOff) :
    m.pc.enabling = false := by
  rw [InterruptsOff] at notOff
  cases pc : m.pc with
  | code todo loaded continuation =>
      rfl
  | here position =>
      rw [pc] at notOff
      cases position with
      | write command rest n c position =>
          cases position <;> first | rfl | exact (notOff rfl).elim
      | _ =>
          rfl

/-- The transmit handler sends the oldest byte and follows the ring with UDRIE. -/
theorem Simulates.dataRegisterEmpty
    {m : Machine}
    (ok : m.RelayOk)
    (enabled : m.sregI = true)
    (udrie : m.udrie = true) :
    Simulates m (m.interrupt txUdrEmptyIrq) := by
  have notEnabling :=
    notEnabling_of_notOff (ok.ready.sreg.not_off enabled)
  have nonempty : ¬ m.tx.Empty := (ok.udrie notEnabling).mp udrie
  have advances : Advances m (m.interrupt txUdrEmptyIrq).1 :=
    { pc := rfl
      keyboardBuffer := rfl
      rxRd := rfl
      rxStored := fun waits => ⟨waits, rfl⟩
      txWr := rfl
      txCells := rfl
      txRoom := fun _ => Ring.not_full_release nonempty
      txEmpty := fun empty => (nonempty empty).elim
      enabling := fun enabling => by
        rw [notEnabling] at enabling
        contradiction }
  refine ⟨ok.position.advance advances, fun _ => ?_, ?_,
    some (.sent m.tx.front), ?_, rfl⟩
  · have sameTx : (m.interrupt txUdrEmptyIrq).1.tx = m.tx.release := rfl
    rw [sameTx]
    by_cases empty : m.tx.release.wr = m.tx.release.rd
    · have cleared : (m.interrupt txUdrEmptyIrq).1.udrie = false := by
        simp only [Machine.udrie, interrupt, txUdrEmptyIrq, if_pos empty]
        rw [IoFile.bit_store_same _ (by decide), BitVec.getLsbD_and,
          BitVec.getLsbD_not, getLsbD_bv]
        simp [udrie0]
      rw [cleared]
      exact iff_of_false (by simp) (not_not.mpr empty.symm)
    · have kept : (m.interrupt txUdrEmptyIrq).1.udrie = m.udrie := by
        simp only [Machine.udrie, interrupt, txUdrEmptyIrq, if_neg empty]
        rw [IoFile.bit_store_other _ (by decide),
          IoFile.bit_force_other _ (by decide)]
      rw [kept]
      exact iff_of_true udrie (fun same => empty same.symm)
  · simp [interrupt, txUdrEmptyIrq, Event.drops]
  · rw [advances.relay]
    exact .transmit _ _ (Ring.contents_release nonempty)

/-- The USART receive handler works on the third ring and on a status bit. -/
theorem usartReceive_kept
    (m : Machine)
    (c : Byte)
    (parityError : Bool) :
    ∃ after,
      m.interrupt
          (fun entered => (entered.rxCompleteIrq c parityError, [])) =
        (after, []) ∧
        KeptByReception m after ∧
          after.rx = m.rx ∧
            after.uart = m.uart := by
  have udre :
      (m.io.force .ucsr0a upe0 parityError).bit .ucsr0a udre0 =
        m.io.bit .ucsr0a udre0 :=
    IoFile.bit_force_bit _ _ _ (by decide) _
  have udrie :
      (m.io.force .ucsr0a upe0 parityError).bit .ucsr0b udrie0 =
        m.io.bit .ucsr0b udrie0 :=
    IoFile.bit_force_other _ (by decide) _ _ _
  refine ⟨_, rfl, ?_⟩
  simp only [rxCompleteIrq]
  split
  · split <;> exact ⟨⟨rfl, rfl, rfl, udre, udrie⟩, rfl, rfl⟩
  · exact ⟨⟨rfl, rfl, rfl, udre, udrie⟩, rfl, rfl⟩

theorem Simulates.usartReceive
    {m : Machine}
    (ok : m.RelayOk)
    (c : Byte)
    (parityError : Bool) :
    Simulates m
      (m.interrupt
        (fun entered => (entered.rxCompleteIrq c parityError, []))) := by
  obtain ⟨after, reached, kept, rx, uart⟩ :=
    usartReceive_kept m c parityError
  rw [reached]
  have advances := kept.advances (by rw [rx]) (by
    rw [rx]
    exact fun nonempty => ⟨nonempty, rfl⟩)
  refine ⟨ok.position.advance advances, kept.udrieFollows ok.udrie, ?_,
    none, ?_, rfl⟩
  · rw [uart]
    exact (Bool.or_false _).symm
  · rw [advances.relay, rx, kept.tx]
    exact .stutter

/-- The transmitter becomes ready for another byte. -/
theorem Simulates.shiftOut
    {m : Machine}
    (ok : m.RelayOk) :
    Simulates m ({ m with io := m.io.force .ucsr0a udre0 true }, []) := by
  have udrie :
      Machine.udrie { m with io := m.io.force .ucsr0a udre0 true } =
        m.udrie :=
    IoFile.bit_force_other _ (by decide) _ _ _
  have advances :
      Advances m { m with io := m.io.force .ucsr0a udre0 true } :=
    { pc := rfl
      keyboardBuffer := rfl
      rxRd := rfl
      rxStored := fun waits => ⟨waits, rfl⟩
      txWr := rfl
      txCells := rfl
      txRoom := id
      txEmpty := fun empty =>
        ⟨empty, fun _ => IoFile.bit_force_same _ _ (by decide) _⟩
      enabling := fun _ => id }
  refine ⟨ok.position.advance advances, ?_, by simp, none, ?_, rfl⟩
  · intro notEnabling
    rw [udrie]
    exact ok.udrie notEnabling
  · exact .stutter

end Machine

end KeyboardEmulator
