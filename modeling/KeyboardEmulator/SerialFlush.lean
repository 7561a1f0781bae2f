import KeyboardEmulator.SerialTransmit

namespace KeyboardEmulator

open BootKeyboard (Byte)
open RingBuffer (Ring next)

/-!
# `flush` and the transmit handler

The handler hands the oldest queued byte on, be it interrupted to or called by
a loop that waits with interrupts off.  `flush` returns when UDRIE and TXC tell
that nothing is on its way any more.
-/

namespace Usart

/-- TXC with an empty ring means that nothing is on its way. -/
theorem quiet_of_complete
    {u : Usart}
    {past : List (TransmitPipeline.Label Byte)}
    (accounts : TransmitPipeline.Accounts past u.pipe)
    (txEmpty : u.m.tx.Empty)
    (window : u.location.window = false)
    (txc : u.txc = true) :
    u.Quiet := by
  have complete : u.pipe.complete = true := by
    simp [Usart.pipe, txc, window]
  exact .of_drained
    (accounts.drained_of_complete (Ring.contents_eq_nil_iff.mpr txEmpty)
      complete)

/-! ## The transmit handler, interrupted to or called -/

/-- Storing back what `clearTxc` gives clears TXC. -/
theorem bit_clearTxc (io : IoFile) (ucsra : Byte) :
    (io.store .ucsr0a (Machine.clearTxc ucsra)).bit .ucsr0a txc0 = false := by
  simp only [IoFile.bit, IoFile.store, storedValue, Machine.clearTxc,
    ↓reduceIte, BitVec.getLsbD_or, BitVec.getLsbD_and, BitVec.getLsbD_not,
    getLsbD_bv]
  simp [ucsr0aStatus, txc0, u2x0, mpcm0]

/-- The oldest queued byte has gone to UDR0. -/
structure Transmits (before after : Usart) : Prop where
  tx : after.m.tx = before.m.tx.release
  udre : after.m.udre = false
  udrie : after.m.udrie = true ↔ ¬ after.m.tx.Empty
  txc : after.txc = false
  udr : after.udr = before.m.tx.front
  shifting : after.shifting = before.shifting

/-- The handler's effect, whoever called it. -/
theorem transmits_txUdrEmptyIrq
    {u after : Usart}
    (udrie : u.m.udrie = true)
    (tx : after.m.tx = u.m.tx.release)
    (io : after.m.io = u.m.txUdrEmptyIrq.1.io)
    (udr : after.udr = u.m.tx.front)
    (shifting : after.shifting = u.shifting) :
    Transmits u after := by
  have forced :
      (u.m.io.force .ucsr0a udre0 false).bit .ucsr0a udre0 = false :=
    IoFile.bit_force_same _ _ (by decide) _
  by_cases empty : u.m.tx.release.wr = u.m.tx.release.rd
  · refine ⟨tx, ?_, ?_, ?_, udr, shifting⟩
    · simp only [Machine.udre, io, Machine.txUdrEmptyIrq, if_pos empty]
      rw [IoFile.bit_store_other _ (by decide), IoFile.bit_store_udre, forced]
    · have cleared : after.m.udrie = false := by
        simp only [Machine.udrie, io, Machine.txUdrEmptyIrq, if_pos empty]
        rw [IoFile.bit_store_same _ (by decide), BitVec.getLsbD_and,
          BitVec.getLsbD_not, getLsbD_bv]
        simp [udrie0]
      rw [cleared, tx]
      exact iff_of_false (by simp) (not_not.mpr empty.symm)
    · simp only [Usart.txc, io, Machine.txUdrEmptyIrq, if_pos empty]
      rw [IoFile.bit_store_other _ (by decide), bit_clearTxc]
  · refine ⟨tx, ?_, ?_, ?_, udr, shifting⟩
    · simp only [Machine.udre, io, Machine.txUdrEmptyIrq, if_neg empty]
      rw [IoFile.bit_store_udre, forced]
    · have kept : after.m.udrie = u.m.udrie := by
        simp only [Machine.udrie, io, Machine.txUdrEmptyIrq, if_neg empty]
        rw [IoFile.bit_store_other _ (by decide),
          IoFile.bit_force_other _ (by decide)]
      rw [kept, tx]
      exact iff_of_true udrie (fun same => empty same.symm)
    · simp only [Usart.txc, io, Machine.txUdrEmptyIrq, if_neg empty]
      rw [bit_clearTxc]

/-- Handing the oldest byte on is a step of the transmitter. -/
theorem Transmits.pipe
    {u after : Usart}
    (transmits : Transmits u after)
    (nonempty : ¬ u.m.tx.Empty)
    (udre : u.m.udre = true) :
    TransmitPipeline.Step 63 u.pipe none after.pipe := by
  have head : u.pipe.queued = u.m.tx.front :: u.m.tx.release.contents :=
    Ring.contents_release nonempty
  have free : u.pipe.data = none := by
    simp only [Usart.pipe, data, udre, ↓reduceIte]
  have reached :
      after.pipe =
        { u.pipe with
          queued := u.m.tx.release.contents
          data := some u.m.tx.front
          complete := false } := by
    simp only [Usart.pipe, data, transmits.tx, transmits.udre,
      transmits.udr, transmits.shifting, transmits.txc, Bool.false_eq_true,
      ↓reduceIte, Bool.false_and]
  rw [reached]
  exact .transmit _ _ head free

/-- The loops of `flush` and `write` call the handler themselves. -/
theorem Simulates.polls
    {u after : Usart}
    (ok : u.TxOk)
    (written : u.written = true)
    (nonempty : ¬ u.m.tx.Empty)
    (udre : u.m.udre = true)
    (outside : u.location.mode = .outside)
    (notEnabling : u.location.enabling = false)
    (tx : after.m.tx = u.m.tx.release)
    (io : after.m.io = u.m.txUdrEmptyIrq.1.io)
    (udr : after.udr = u.m.tx.front)
    (shifting : after.shifting = u.shifting)
    (same :
      after.written = u.written ∧ after.m.sregI = u.m.sregI ∧
        after.flag = u.flag)
    (there : after.location.mode = .outside)
    (uncommitted : after.location.uncommitted = u.location.uncommitted)
    (target : after.TxAt after.location) :
    Simulates u (after, []) := by
  have udrie : u.m.udrie = true := (ok.udrie notEnabling).mpr nonempty
  have transmits : Transmits u after :=
    transmits_txUdrEmptyIrq udrie tx io udr shifting
  have flag : after.m.sregI = after.flag := by
    rw [same.2.1, same.2.2, ok.flag.outside outside]
  refine ⟨⟨target, .of_outside there flag, fun _ => transmits.udrie, ?_⟩,
    fun _ _ => written, none, transmits.pipe nonempty udre, ?_, rfl⟩
  · intro unwritten
    rw [same.1, written] at unwritten
    contradiction
  · exact (List.append_nil _).trans uncommitted.symm

/-- One step of `flush()`. -/
theorem Simulates.flushStep
    {u : Usart}
    {past : List (TransmitPipeline.Label Byte)}
    {ending : Bool}
    {position : FlushAt}
    (ok : u.TxOk)
    (accounts : TransmitPipeline.Accounts past u.pipe)
    (here : u.location = .flush ending position) :
    Simulates u (u.flushStep ending position) := by
  have target := ok.position
  rw [here] at target
  have notWrite : ∀ c position, u.location ≠ .write c position := by
    intro c position isWrite
    rw [here] at isWrite
    contradiction
  have moves :=
    fun after same written flags position =>
      @moves_outside u after [] ok same written flags position notWrite
  cases position with
  | testWritten =>
      rw [Usart.flushStep]
      split
      next written =>
        exact moves _ (.moved u _ _ _ _ _ _ _) rfl ⟨rfl, rfl⟩ written
          (fun _ _ => nofun) rfl rfl
      next unwritten =>
        have quiet := ok.unwritten (by simpa using unwritten)
        exact moves _ (.moved u _ _ _ _ _ _ _) rfl ⟨rfl, rfl⟩
          (SameTx.quiet (.moved u _ _ _ _ _ _ _) quiet)
          (fun _ _ => nofun) rfl rfl
  | testUdrie =>
      rw [Usart.flushStep]
      split
      next =>
        exact moves _ (.moved u _ _ _ _ _ _ _) rfl ⟨rfl, rfl⟩ target
          (fun _ _ => nofun) rfl rfl
      next off =>
        have follows := ok.udrie (by rw [here]; rfl)
        have txEmpty : u.m.tx.Empty :=
          not_not.mp (mt follows.mpr off)
        exact moves _ (.moved u _ _ _ _ _ _ _) rfl ⟨rfl, rfl⟩
          ⟨target, txEmpty⟩ (fun _ _ => nofun) rfl rfl
  | testTxc =>
      obtain ⟨written, txEmpty⟩ := target
      rw [Usart.flushStep]
      split
      next complete =>
        have quiet :=
          quiet_of_complete accounts txEmpty (by rw [here]; rfl) complete
        exact moves _ (.moved u _ _ _ _ _ _ _) rfl ⟨rfl, rfl⟩
          (SameTx.quiet (.moved u _ _ _ _ _ _ _) quiet)
          (fun _ _ => nofun) rfl rfl
      next =>
        exact moves _ (.moved u _ _ _ _ _ _ _) rfl ⟨rfl, rfl⟩ written
          (fun _ _ => nofun) rfl rfl
  | testSreg =>
      rw [Usart.flushStep]
      split
      next =>
        exact moves _ (.moved u _ _ _ _ _ _ _) rfl ⟨rfl, rfl⟩ target
          (fun _ _ => nofun) rfl rfl
      next off =>
        exact moves _ (.moved u _ _ _ _ _ _ _) rfl ⟨rfl, rfl⟩
          ⟨target, by simpa using off⟩ (fun _ _ => nofun) rfl rfl
  | testUdrieOff =>
      obtain ⟨written, off⟩ := target
      rw [Usart.flushStep]
      split
      next udrie =>
        have follows := ok.udrie (by rw [here]; rfl)
        exact moves _ (.moved u _ _ _ _ _ _ _) rfl ⟨rfl, rfl⟩
          ⟨written, off, follows.mp udrie⟩ (fun _ _ => nofun) rfl rfl
      next =>
        exact moves _ (.moved u _ _ _ _ _ _ _) rfl ⟨rfl, rfl⟩ written
          (fun _ _ => nofun) rfl rfl
  | testUdre =>
      obtain ⟨written, off, nonempty⟩ := target
      rw [Usart.flushStep]
      split
      next udre =>
        exact .polls ok written nonempty udre (by rw [here]; rfl)
          (by rw [here]; rfl) rfl rfl rfl rfl ⟨rfl, rfl, rfl⟩ rfl
          (by rw [here]; rfl) written
      next =>
        exact moves _ (.moved u _ _ _ _ _ _ _) rfl ⟨rfl, rfl⟩ written
          (fun _ _ => nofun) rfl rfl
  | ret =>
      have quiet : u.Quiet := target
      cases ending with
      | true =>
          exact .moves_outside ok (.moved u _ _ _ _ _ _ _) rfl ⟨rfl, rfl⟩
            ⟨SameTx.quiet (.moved u _ _ _ _ _ _ _) quiet, spares_endCode,
              fun _ held => by contradiction⟩
            notWrite (fun _ _ => nofun) rfl rfl
      | false =>
          exact .moves_outside ok (.moved u _ _ _ _ _ _ _) rfl ⟨rfl, rfl⟩
            trivial notWrite (fun _ _ => nofun) rfl rfl

end Usart

end KeyboardEmulator
