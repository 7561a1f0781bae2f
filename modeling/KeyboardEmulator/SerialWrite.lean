import KeyboardEmulator.SerialFlush

namespace KeyboardEmulator

open BootKeyboard (Byte)
open RingBuffer (Ring next)

/-!
# `write` under an arbitrary client

The byte takes the direct path into UDR0 or the buffered path through the ring,
with interrupts on or off, and the flag is put back as the client left it.
-/

namespace Usart

/-- A move inside `write` that leaves the transmitter as it is. -/
theorem Simulates.writeMoves
    {u after : Usart}
    {c : Byte}
    {position reached : WriteAt}
    (ok : u.TxOk)
    (here : u.location = .write c position)
    (same : SameTx u after)
    (written : after.written = u.written)
    (flag : after.FlagOk)
    (there : after.location = .write c reached)
    (target : after.WriteOk c reached)
    (enabling : reached.enabling = false → position.enabling = false)
    (committed : reached.committed = position.committed)
    (window :
      (At.write c reached).window = (At.write c position).window) :
    Simulates u (after, []) := by
  have isWritten : u.written = true := by
    have atWrite := ok.position
    rw [here] at atWrite
    exact atWrite.1
  refine .moves ok same written flag ?_ ?_ ?_ ?_ rfl rfl
  · rw [there]
    exact ⟨written.trans isWritten, target⟩
  · rw [there, here]
    exact enabling
  · rw [there, here, window]
  · rw [there, here, At.uncommitted, At.uncommitted, committed]

/-- The direct path hands the byte to the transmitter while the ring is empty. -/
theorem Simulates.fastUdr
    {u : Usart}
    {c : Byte}
    (ok : u.TxOk)
    (here : u.location = .write c .fastUdr) :
    Simulates u (u.writeStep c .fastUdr) := by
  have position := ok.position
  have flag := ok.flag
  rw [here] at position
  rw [FlagOk, here] at flag
  obtain ⟨written, txEmpty, udre⟩ := position
  have full : (u.writeStep c .fastUdr).1.m.udre = false :=
    IoFile.bit_force_same _ _ (by decide) _
  have sameUdrie : (u.writeStep c .fastUdr).1.m.udrie = u.m.udrie :=
    IoFile.bit_force_other _ (by decide) _ _ _
  refine ⟨⟨⟨written, txEmpty, fun empty => ?_⟩, flag, fun _ => ?_,
    fun unwritten => ?_⟩, fun _ _ => written, some (.accepted c), ?_, ?_, rfl⟩
  · rw [full] at empty
    contradiction
  · rw [sameUdrie]
    exact ok.udrie (by rw [here]; rfl)
  · rw [show (u.writeStep c .fastUdr).1.written = true from written]
      at unwritten
    contradiction
  · have reached :
        (u.writeStep c .fastUdr).1.pipe =
          { u.pipe with data := some c, complete := false } := by
      simp only [Usart.pipe, data, full, Bool.false_eq_true, ↓reduceIte]
      simp [Usart.writeStep, Machine.writeStep, absorb, lastUdr, writeAt,
        writeFrame, At.window]
    have free : u.pipe.data = none := by
      simp only [Usart.pipe, data, udre, ↓reduceIte]
    rw [reached]
    exact .bypass c (Ring.contents_eq_nil_iff.mpr txEmpty) free
  · rw [here]
    rfl

/-- Clearing TXC after the byte is in UDR0; it cannot have left yet. -/
theorem Simulates.fastUcsra
    {u : Usart}
    {c ucsra : Byte}
    (ok : u.TxOk)
    (here : u.location = .write c (.fastUcsra (some ucsra))) :
    Simulates u (u.writeStep c (.fastUcsra (some ucsra))) := by
  have position := ok.position
  have flag := ok.flag
  rw [here] at position
  rw [FlagOk, here] at flag
  obtain ⟨written, txEmpty, onItsWay⟩ := position
  have sameUdre :
      (u.writeStep c (.fastUcsra (some ucsra))).1.m.udre = u.m.udre :=
    IoFile.bit_store_udre _ _ _
  have sameUdrie :
      (u.writeStep c (.fastUcsra (some ucsra))).1.m.udrie = u.m.udrie :=
    IoFile.bit_store_other _ (by decide) _ _
  have cleared : (u.writeStep c (.fastUcsra (some ucsra))).1.txc = false :=
    bit_clearTxc _ _
  refine ⟨⟨⟨written, txEmpty⟩, flag, fun _ => ?_, fun unwritten => ?_⟩,
    fun _ _ => written, none, ?_, ?_, rfl⟩
  · rw [sameUdrie]
    exact ok.udrie (by rw [here]; rfl)
  · rw [show (u.writeStep c (.fastUcsra (some ucsra))).1.written = true
      from written] at unwritten
    contradiction
  · have same :
        (u.writeStep c (.fastUcsra (some ucsra))).1.pipe = u.pipe := by
      simp only [Usart.pipe, data, sameUdre, cleared, here]
      simp [Usart.writeStep, Machine.writeStep, absorb, lastUdr, At.window]
    rw [same]
    exact .stutter
  · rw [here]
    rfl

/-- The byte is put into the free cell, not yet published. -/
theorem Simulates.cell
    {u : Usart}
    {c : Byte}
    {i head : Fin 64}
    (ok : u.TxOk)
    (here : u.location = .write c (.cell i head)) :
    Simulates u (u.writeStep c (.cell i head)) := by
  have position := ok.position
  have flag := ok.flag
  rw [here] at position
  rw [FlagOk, here] at flag
  obtain ⟨written, free, rfl⟩ := position
  refine ⟨⟨⟨written, ⟨free.index, free.room⟩, by
      simp [Usart.writeStep, Machine.writeStep, absorb]⟩, flag, fun _ => ?_,
    fun unwritten => ?_⟩, fun _ _ => written, none, ?_, ?_, rfl⟩
  · exact ok.udrie (by rw [here]; rfl)
  · rw [show (u.writeStep c (.cell i u.m.tx.wr)).1.written = true
      from written] at unwritten
    contradiction
  · have unpublished := Ring.contents_fill u.m.tx c
    simp only [Ring.fill] at unpublished
    have same : (u.writeStep c (.cell i u.m.tx.wr)).1.pipe = u.pipe := by
      have sameData : (u.writeStep c (.cell i u.m.tx.wr)).1.data = u.data := rfl
      have sameTxc : (u.writeStep c (.cell i u.m.tx.wr)).1.txc = u.txc := rfl
      simp only [Usart.pipe, sameData, sameTxc, here]
      simp [Usart.writeStep, Machine.writeStep, absorb, writeAt, writeFrame,
        At.window, unpublished]
    rw [same]
    exact .stutter
  · rw [here]
    rfl

/-- Moving the head publishes the byte. -/
theorem Simulates.slowHead
    {u : Usart}
    {c : Byte}
    {i : Fin 64}
    (ok : u.TxOk)
    (here : u.location = .write c (.slowHead i)) :
    Simulates u (u.writeStep c (.slowHead i)) := by
  have position := ok.position
  have flag := ok.flag
  rw [here] at position
  rw [FlagOk, here] at flag
  obtain ⟨written, ⟨rfl, room⟩, filled⟩ := position
  refine ⟨⟨⟨written, Ring.not_empty_commit room⟩, flag, fun enabled => ?_,
    fun unwritten => ?_⟩, fun _ _ => written, some (.accepted c), ?_, ?_, rfl⟩
  · contradiction
  · rw [show (u.writeStep c (.slowHead (next u.m.tx.wr))).1.written = true
      from written] at unwritten
    contradiction
  · have appended : u.m.tx.commit.contents = u.m.tx.contents ++ [c] := by
      rw [Ring.contents_commit room, filled]
    have reached :
        (u.writeStep c (.slowHead (next u.m.tx.wr))).1.pipe =
          { u.pipe with queued := u.pipe.queued ++ [c] } := by
      simp only [Usart.pipe, ← appended, here]
      rfl
    have notFull : u.pipe.queued.length < 63 := by
      have bound := u.m.tx.occupancy_lt
      have apart := mt Ring.full_iff_occupancy.mpr room
      simp only [Usart.pipe, Ring.length_contents]
      omega
    rw [reached]
    exact .enqueue c notFull
  · rw [here]
    rfl

/-- Setting UDRIE after the head has moved. -/
theorem Simulates.slowUcsrb
    {u : Usart}
    {c ucsrb : Byte}
    (ok : u.TxOk)
    (here : u.location = .write c (.slowUcsrb (some ucsrb))) :
    Simulates u (u.writeStep c (.slowUcsrb (some ucsrb))) := by
  have position := ok.position
  have flag := ok.flag
  rw [here] at position
  rw [FlagOk, here] at flag
  obtain ⟨written, nonempty⟩ := position
  have sameUdre :
      (u.writeStep c (.slowUcsrb (some ucsrb))).1.m.udre = u.m.udre :=
    IoFile.bit_store_other _ (by decide) _ _
  have sameTxc :
      (u.writeStep c (.slowUcsrb (some ucsrb))).1.txc = u.txc :=
    IoFile.bit_store_other _ (by decide) _ _
  refine ⟨⟨⟨written, trivial⟩, flag, fun _ => ?_, fun unwritten => ?_⟩,
    fun _ _ => written, none, ?_, ?_, rfl⟩
  · refine iff_of_true ?_ nonempty
    simp only [Machine.udrie, Usart.writeStep, Machine.writeStep, absorb,
      reduceCtorEq, ↓reduceIte]
    rw [IoFile.bit_store_same _ (by decide), BitVec.getLsbD_or, getLsbD_bv]
    simp [udrie0]
  · rw [show (u.writeStep c (.slowUcsrb (some ucsrb))).1.written = true
      from written] at unwritten
    contradiction
  · have same :
        (u.writeStep c (.slowUcsrb (some ucsrb))).1.pipe = u.pipe := by
      simp only [Usart.pipe, data, sameUdre, sameTxc, here]
      rfl
    rw [same]
    exact .stutter
  · rw [here]
    rfl

/-- One step of `write(c)`. -/
theorem Simulates.writeStep
    {u : Usart}
    {c : Byte}
    {position : WriteAt}
    (ok : u.TxOk)
    (here : u.location = .write c position) :
    Simulates u (u.writeStep c position) := by
  have target := ok.position
  have flag := ok.flag
  rw [here] at target
  rw [FlagOk, here] at flag
  obtain ⟨written, target⟩ := target
  have moves := fun reached after =>
    @writeMoves u after c position reached ok here
  cases position with
  | compareHead =>
      exact moves _ _ (.moved u _ _ _ _ _ _ _) rfl flag rfl rfl (fun _ => rfl)
        rfl rfl
  | compareTail head =>
      have headIs : head = u.m.tx.wr := target
      by_cases same : head = u.m.tx.rd
      · have txEmpty : u.m.tx.Empty := (headIs.symm.trans same).symm
        simp only [Usart.writeStep, Machine.writeStep, if_pos same]
        exact moves _ _ (.moved u _ _ _ _ _ _ _) rfl flag rfl txEmpty
          (fun _ => rfl) rfl rfl
      · simp only [Usart.writeStep, Machine.writeStep, if_neg same]
        exact moves _ _ (.moved u _ _ _ _ _ _ _) rfl flag rfl trivial
          (fun _ => rfl) rfl rfl
  | testUdre =>
      by_cases udre : u.m.io.bit .ucsr0a udre0 = true
      · simp only [Usart.writeStep, Machine.writeStep, if_pos udre]
        exact moves _ _ (.moved u _ _ _ _ _ _ _) rfl flag rfl ⟨target, udre⟩
          (fun _ => rfl) rfl rfl
      · simp only [Usart.writeStep, Machine.writeStep, if_neg udre]
        exact moves _ _ (.moved u _ _ _ _ _ _ _) rfl flag rfl trivial
          (fun _ => rfl) rfl rfl
  | fastSave | slowSave i =>
      exact moves _ _ (.moved u _ _ _ _ _ _ _) rfl ⟨flag, flag⟩ rfl target
        (fun _ => rfl) rfl rfl
  | fastCli | slowCli i =>
      exact moves _ _ (.moved u _ _ _ _ _ _ _) rfl ⟨rfl, flag.2⟩ rfl target
        (fun _ => rfl) rfl rfl
  | fastUdr =>
      exact .fastUdr ok here
  | fastUcsra loaded =>
      cases loaded with
      | none =>
          exact moves _ _ (.moved u _ _ _ _ _ _ _) rfl flag rfl target
            (fun _ => rfl) rfl rfl
      | some ucsra =>
          exact .fastUcsra ok here
  | fastRestore | slowRestore =>
      exact moves _ _ (.moved u _ _ _ _ _ _ _) rfl flag.2 rfl trivial
        (fun _ => rfl) rfl rfl
  | nextIndex =>
      exact moves _ _ (.moved u _ _ _ _ _ _ _) rfl flag rfl rfl (fun _ => rfl)
        rfl rfl
  | spin i =>
      have isNext : i = next u.m.tx.wr := target
      by_cases full : i = u.m.tx.rd
      · have isFull : u.m.tx.Full := isNext.symm.trans full
        simp only [Usart.writeStep, Machine.writeStep, if_pos full]
        exact moves _ _ (.moved u _ _ _ _ _ _ _) rfl flag rfl ⟨isNext, fun _ =>
          isFull⟩ (fun _ => rfl) rfl rfl
      · have room : ¬ u.m.tx.Full := fun isFull => full (isNext.trans isFull)
        simp only [Usart.writeStep, Machine.writeStep, if_neg full]
        exact moves _ _ (.moved u _ _ _ _ _ _ _) rfl flag rfl ⟨isNext, room⟩
          (fun _ => rfl) rfl rfl
  | spinSreg i =>
      obtain ⟨isNext, isFull⟩ := target
      by_cases off : u.m.sregI = false
      · simp only [Usart.writeStep, Machine.writeStep, if_pos off]
        exact moves _ _ (.moved u _ _ _ _ _ _ _) rfl flag rfl ⟨isNext, off,
          isFull off⟩ (fun _ => rfl) rfl rfl
      · simp only [Usart.writeStep, Machine.writeStep, if_neg off]
        exact moves _ _ (.moved u _ _ _ _ _ _ _) rfl flag rfl isNext
          (fun _ => rfl) rfl rfl
  | spinUdre i =>
      obtain ⟨isNext, off, isFull⟩ := target
      by_cases udre : u.m.io.bit .ucsr0a udre0 = true
      · have nonempty : ¬ u.m.tx.Empty :=
          fun empty => Ring.not_full_of_empty (by decide) empty isFull
        simp only [Usart.writeStep, Machine.writeStep, if_pos udre]
        exact .polls ok written nonempty udre (by rw [here]; rfl)
          (by rw [here]; rfl) rfl rfl rfl rfl ⟨rfl, rfl, rfl⟩ rfl
          (by rw [here]; rfl) ⟨written, isNext⟩
      · simp only [Usart.writeStep, Machine.writeStep, if_neg udre]
        exact moves _ _ (.moved u _ _ _ _ _ _ _) rfl flag rfl isNext
          (fun _ => rfl) rfl rfl
  | cellIndex i =>
      exact moves _ _ (.moved u _ _ _ _ _ _ _) rfl flag rfl ⟨target, rfl⟩
        (fun _ => rfl) rfl rfl
  | cell i head =>
      exact .cell ok here
  | slowHead i =>
      exact .slowHead ok here
  | slowUcsrb loaded =>
      cases loaded with
      | none =>
          exact moves _ _ (.moved u _ _ _ _ _ _ _) rfl flag rfl target
            (fun reached => Bool.noConfusion reached) rfl rfl
      | some ucsrb =>
          exact .slowUcsrb ok here
  | ret =>
      refine .moves ok (.moved u _ _ _ _ _ _ _) rfl flag trivial ?_ ?_ ?_ rfl
        rfl
      · rw [here]
        exact fun _ => rfl
      · rw [here]
        rfl
      · rw [here]
        rfl

end Usart

end KeyboardEmulator
