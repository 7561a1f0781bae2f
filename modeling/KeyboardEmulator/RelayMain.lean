import KeyboardEmulator.RelayInvariant

namespace KeyboardEmulator

open BootKeyboard (Byte)
open RingBuffer (Ring next)

/-!
# Main refines the relay

Every step of main is at most one step of the bounded relay with two queues of
63 bytes, shows the same events, and keeps what its position says about the
rings.
-/

/-- The event that shows a step of the relay. -/
def Event.ofLabel : BoundedRelay.Label Byte Byte → Event
  | .stored b => .stored b
  | .dropped b => .dropped b
  | .consumed b => .consumed b
  | .translated b => .translated b.toNat
  | .sent b => .udr b

/-- Bytes that each ring can hold. -/
def ringCapacity : Nat :=
  63

/-- A step of the relay that translates bytes into key reports. -/
abbrev RelayStep :
    BoundedRelay.State Byte Byte →
      Option (BoundedRelay.Label Byte Byte) →
        BoundedRelay.State Byte Byte → Prop :=
  BoundedRelay.Step bytesFor ringCapacity ringCapacity

/-- A byte was dropped. -/
def Event.drops : Event → Bool
  | .dropped _ => true
  | _ => false

namespace Machine

/-- The step keeps the invariant and is a step of the relay. -/
structure Simulates (m : Machine) (result : Machine × List Event) : Prop where
  position : result.1.PcOk
  udrie : result.1.UdrieFollows
  overflow :
    result.1.uart.bufferOverflow =
      (m.uart.bufferOverflow || result.2.any Event.drops)
  relay :
    ∃ label,
      RelayStep m.relay label result.1.relay ∧
        result.2 = (label.map Event.ofLabel).toList

/-- Steps that only move main, or touch what the relay does not consist of. -/
theorem Simulates.quiet
    {m after : Machine}
    (udrieBefore : m.UdrieFollows)
    (notEnabling : m.pc.enabling = false)
    (rx : after.rx = m.rx)
    (tx : after.tx = m.tx)
    (udrie : after.udrie = m.udrie)
    (overflow : after.uart.bufferOverflow = m.uart.bufferOverflow)
    (pending : after.pc.pending = m.pc.pending)
    (owed :
      after.pc.target.owed after.keyboardBuffer =
        m.pc.target.owed m.keyboardBuffer)
    (position : after.PcOk) :
    Simulates m (after, []) where
  position := position
  udrie _ := by
    rw [udrie, tx]
    exact udrieBefore notEnabling
  overflow := by
    rw [overflow, List.any_nil, Bool.or_false]
  relay := by
    have same : after.relay = m.relay := by
      simp only [Machine.relay, rx, tx, pending, owed]
    refine ⟨none, ?_, rfl⟩
    rw [same]
    exact .stutter

/-- LED code works on port and direction registers only. -/
theorem codeStep_sameRelay
    {m : Machine}
    {todo : List Access}
    {loaded : Option Byte}
    (confined : ∀ access ∈ todo, access.confined ledBits = true)
    (continuation : Pos) :
    SameRelay m (m.codeStep todo loaded continuation) := by
  cases todo with
  | nil =>
      exact .moved m _ _ _
  | cons access rest =>
      have here := confined access (by simp)
      cases access with
      | saveSreg | cli | restoreSreg =>
          exact .moved m _ _ _
      | modify reg keep set =>
          simp only [Access.confined, Bool.and_eq_true] at here
          have plain := Reg.plain_of_isGpio here.1.1
          cases loaded with
          | none =>
              exact .moved m _ _ _
          | some value =>
              exact ⟨rfl, rfl, rfl, rfl,
                IoFile.bit_store_other _ plain.1.symm _ _,
                IoFile.bit_store_other _ plain.2.2.symm _ _⟩
      | _ =>
          contradiction

/-- A step of LED code. -/
theorem Simulates.codeStep
    {m : Machine}
    {todo : List Access}
    {loaded : Option Byte}
    {continuation : Pos}
    (ok : m.RelayOk)
    (pc : m.pc = .code todo loaded continuation) :
    Simulates m (m.codeStep todo loaded continuation, []) := by
  have position := ok.position
  rw [PcOk, pc] at position
  obtain ⟨followsLed, target⟩ := position
  have same : SameRelay m (m.codeStep todo loaded continuation) :=
    codeStep_sameRelay (ok.confinedCode pc).confined continuation
  have stays :
      (m.codeStep todo loaded continuation).pc.target = continuation ∧
        (m.codeStep todo loaded continuation).pc.pending = none ∧
          (m.codeStep todo loaded continuation).PcOk := by
    have after := (posOk_congr same continuation).mpr target
    cases todo with
    | nil =>
        refine ⟨rfl, ?_, after⟩
        cases continuation <;> first | rfl | contradiction
    | cons access rest =>
        cases access <;> cases loaded <;>
          exact ⟨rfl, rfl, followsLed, after⟩
  refine .quiet ok.udrie (by rw [pc]; rfl) same.rx same.tx same.udrie
    same.overflow ?_ ?_ stays.2.2
  · rw [stays.2.1, pc]
    rfl
  · rw [stays.1, same.keyboardBuffer, pc]
    rfl

/-- Steps from a position that leave the rings and the key buffer alone. -/
theorem Simulates.moves
    {m after : Machine}
    {position : Pos}
    (udrie : m.UdrieFollows)
    (pc : m.pc = .here position)
    (notEnabling : position.enabling = false)
    (same : SameRelay m after)
    (pending : after.pc.pending = position.pending)
    (owed :
      after.pc.target.owed m.keyboardBuffer =
        position.owed m.keyboardBuffer)
    (target : after.PcOk) :
    Simulates m (after, []) := by
  refine .quiet udrie ?_ same.rx same.tx same.udrie same.overflow ?_ ?_
    target
  · rw [pc]
    exact notEnabling
  · rw [pending, pc]
    rfl
  · rw [same.keyboardBuffer, owed, pc]
    rfl

/-- `available()` is positive exactly when the two indices differ. -/
theorem availableFrom_ne_zero_iff {tail head : Fin 64} :
    SoftwareSerial.availableFrom tail head ≠ 0 ↔ tail ≠ head :=
  not_congr (RingBuffer.distance_eq_zero_iff.trans eq_comm)

theorem Simulates.loopHead
    {m : Machine}
    (ok : m.RelayOk)
    (pc : m.pc = .here .loopHead) :
    Simulates m (m.pollStep .loopHead, []) := by
  rw [Machine.pollStep, if_pos ok.isListening]
  refine .quiet ok.udrie (by rw [pc]; rfl) rfl rfl rfl rfl
    (by rw [pc]; rfl) (by rw [pc]; rfl) ⟨rfl, ?_⟩
  exact fun waits empty => waits empty.symm

theorem Simulates.availHead
    {m : Machine}
    {tail : Fin 64}
    (ok : m.RelayOk)
    (pc : m.pc = .here (.availHead tail)) :
    Simulates m (m.pollStep (.availHead tail), []) := by
  have target := ok.position
  rw [PcOk, pc] at target
  obtain ⟨cleared, waits⟩ := target
  rw [Machine.pollStep]
  split
  next available =>
    exact .moves ok.udrie pc rfl (.moved m _ _ _) rfl rfl
      ⟨rfl, cleared, waits (availableFrom_ne_zero_iff.mp available)⟩
  next =>
    exact .moves ok.udrie pc rfl (.moved m _ _ _) rfl rfl
      trivial

/-- A byte survives the trip through the `int` that `read` returns. -/
theorem ofInt_toNat (d : Byte) : BitVec.ofInt 8 d.toNat = d := by
  simp

theorem Simulates.readStep
    {m : Machine}
    {position : Pos}
    (ok : m.RelayOk)
    (pc : m.pc = .here position)
    (reads :
      position matches .readHead | .readTail _ | .readIndex | .readCell _
        | .readNext _ | .readStore _ _) :
    Simulates m (m.readStep position) := by
  have target := ok.position
  rw [PcOk, pc] at target
  have moves := fun after => @moves m after position ok.udrie pc
  cases position with
  | readHead =>
      rw [Machine.readStep, if_pos ok.isListening]
      exact moves _ rfl (.moved m _ _ _) rfl rfl ⟨target, rfl⟩
  | readTail head =>
      obtain ⟨waits, rfl⟩ := target
      have apart : ¬ m.rx.rd = m.rx.wr := waits.nonempty
      rw [Machine.readStep, if_neg apart]
      exact moves _ rfl (.moved m _ _ _) rfl rfl waits
  | readIndex =>
      exact moves _ rfl (.moved m _ _ _) rfl rfl ⟨target, rfl⟩
  | readCell index =>
      obtain ⟨waits, rfl⟩ := target
      exact moves _ rfl (.moved m _ _ _) rfl rfl ⟨waits, rfl⟩
  | readNext d =>
      obtain ⟨waits, front⟩ := target
      exact moves _ rfl (.moved m _ _ _) rfl rfl
        ⟨waits, front, rfl⟩
  | readStore d head =>
      obtain ⟨waits, rfl, rfl⟩ := target
      refine ⟨⟨waits.cleared, _, rfl⟩, fun _ => ?_, ?_, ?_⟩
      · exact ok.udrie (by rw [pc]; rfl)
      · simp [Machine.readStep, Event.drops]
      · have after :
            (m.readStep (.readStore m.rx.front m.rx.rd)).1.relay =
              { m.relay with
                unread := m.rx.release.contents
                pending := some m.rx.front } := by
          simp only [Machine.readStep, Machine.relay, pc]
          simp only [Pc.pending, Pos.pending, Pc.target, Pos.owed,
            ofInt_toNat]
          rfl
        have idle : m.relay.pending = none := by
          simp only [Machine.relay, pc, Pc.pending, Pos.pending]
        have done : m.relay.owed = [] := by
          simp only [Machine.relay, pc, Pc.target, Pos.owed]
        refine ⟨some (.consumed m.rx.front), ?_, rfl⟩
        rw [after]
        exact .consume _ _ (Ring.contents_release waits.nonempty) idle done
  | _ =>
      contradiction

/-- `translateInput` turns the byte just read into what main owes for it. -/
theorem Simulates.translate
    {m : Machine}
    {ret : Int}
    (ok : m.RelayOk)
    (pc : m.pc = .here (.translate ret)) :
    Simulates m (m.sendStep (.translate ret)) := by
  have target := ok.position
  rw [PcOk, pc] at target
  obtain ⟨cleared, d, rfl⟩ := target
  have pending : m.relay.pending = some d := by
    simp only [Machine.relay, pc, Pc.pending, Pos.pending, ofInt_toNat]
  have done : m.relay.owed = [] := by
    simp only [Machine.relay, pc, Pc.target, Pos.owed]
  have follows : m.udrie = true ↔ ¬ m.tx.Empty :=
    ok.udrie (by rw [pc]; rfl)
  have expanded :
      (m.sendStep (.translate d.toNat)).1.relay =
        { m.relay with pending := none, owed := bytesFor d } := by
    simp only [Machine.sendStep, Machine.relay, ofInt_toNat, cleared,
      bytesFor, reportsFor]
    cases translateInput d clearedBuffer with
    | mk found buffer =>
        cases found <;>
          simp [Pc.pending, Pos.pending, Pc.target, Pos.owed,
            serialWrites]
  refine ⟨?_, fun _ => follows, ?_, some (.translated d), ?_, rfl⟩
  · simp only [Machine.sendStep, PcOk]
    cases (translateInput (BitVec.ofInt 8 d.toNat) m.keyboardBuffer).1 <;>
      simp [Pos.followsLed, PosOk]
  · simp [Machine.sendStep, Event.drops]
  · rw [expanded]
    exact .translate d pending done

/-- The loop of `Print::write` hands on one byte of a buffer after another. -/
theorem Simulates.printStep
    {m : Machine}
    {position : Pos}
    (ok : m.RelayOk)
    (pc : m.pc = .here position)
    (prints :
      position matches .sendKey | .print _ _ _ | .write _ _ _ _ .ret) :
    Simulates m (m.sendStep position) := by
  have moves := fun after => @moves m after position ok.udrie pc
  cases position with
  | sendKey =>
      exact moves _ rfl (.moved m _ _ _) rfl
        (by simp [Pc.target, Pos.owed, Pos.commandRest]) trivial
  | print command buffer n =>
      cases buffer with
      | nil =>
          cases command <;>
            exact moves _ rfl (.moved m _ _ _) rfl
              (by simp [Pc.target, Pos.owed, Pos.commandRest]) trivial
      | cons c rest =>
          have held := Pos.owed_uncommitted m.keyboardBuffer command rest n c
            (show WriteAt.compareHead.committed = false from rfl)
          cases command <;>
            exact moves _ rfl (.moved m _ _ _) rfl held trivial
  | write command rest n c position =>
      cases position with
      | ret =>
          exact moves _ rfl (.moved m _ _ _) rfl rfl trivial
      | _ =>
          contradiction
  | _ =>
      contradiction

/-- While main is in `write` outside its sections, interrupts are on. -/
theorem RelayOk.sregI_of_outside
    {m : Machine}
    (ok : m.RelayOk)
    {position : Pos}
    (pc : m.pc = .here position)
    (outside : position.mode = .outside)
    (started : position.afterSei = true) :
    m.sregI = true := by
  have flag := ok.ready.sreg.outside
  rw [pc] at flag
  exact (flag outside).trans started

/-- The direct path hands the byte to the transmitter while the ring is empty. -/
theorem Simulates.fastUdr
    {m : Machine}
    {command : Command}
    {rest : List Byte}
    {n : Nat}
    {c : Byte}
    (ok : m.RelayOk)
    (pc : m.pc = .here (.write command rest n c .fastUdr)) :
    Simulates m
      (m.writeStep (.write command rest n c) c .fastUdr) := by
  have target := ok.position
  rw [PcOk, pc] at target
  obtain ⟨empty, _⟩ := target
  have follows : m.udrie = true ↔ ¬ m.tx.Empty :=
    ok.udrie (by rw [pc]; rfl)
  have sameUdrie :
      (m.writeStep (.write command rest n c) c .fastUdr).1.udrie =
        m.udrie :=
    IoFile.bit_force_other _ (by decide) _ _ _
  refine ⟨empty, fun _ => ?_, ?_, some (.sent c), ?_, rfl⟩
  · rw [sameUdrie]
    exact follows
  · simp [Machine.writeStep, Event.drops]
  · have head : m.relay.owed = c :: (rest ++ Pos.commandRest command) :=
      relay_owed_uncommitted pc rfl
    have none : m.relay.pending = none := by
      simp only [Machine.relay, pc, Pc.pending, Pos.pending]
    have after :
        (m.writeStep (.write command rest n c) c .fastUdr).1.relay =
          { m.relay with owed := rest ++ Pos.commandRest command } := by
      simp only [Machine.relay, Machine.writeStep, pc]
      rfl
    rw [after]
    exact .bypass c _ head (Ring.contents_eq_nil_iff.mpr empty)

/-- Moving the head publishes the byte that was put into the free cell. -/
theorem Simulates.slowHead
    {m : Machine}
    {command : Command}
    {rest : List Byte}
    {n : Nat}
    {c : Byte}
    {i : Fin 64}
    (ok : m.RelayOk)
    (pc : m.pc = .here (.write command rest n c (.slowHead i))) :
    Simulates m
      (m.writeStep (.write command rest n c) c (.slowHead i)) := by
  have target := ok.position
  rw [PcOk, pc] at target
  obtain ⟨⟨rfl, room⟩, filled⟩ := target
  refine ⟨Ring.not_empty_commit room, ?_, ?_, none, ?_, rfl⟩
  · intro notEnabling
    contradiction
  · simp [Machine.writeStep]
  · have head : m.relay.owed = c :: (rest ++ Pos.commandRest command) :=
      relay_owed_uncommitted pc rfl
    have appended : m.tx.commit.contents = m.tx.contents ++ [c] := by
      rw [Ring.contents_commit room, filled]
    have after :
        (m.writeStep (.write command rest n c) c
            (.slowHead (next m.tx.wr))).1.relay =
          { m.relay with
            owed := rest ++ Pos.commandRest command
            queued := m.relay.queued ++ [c] } := by
      simp only [Machine.relay, Machine.writeStep, pc, ← appended]
      rfl
    have notFull : m.relay.queued.length < ringCapacity := by
      have bound := m.tx.occupancy_lt
      have apart := mt Ring.full_iff_occupancy.mpr room
      simp only [Machine.relay, Ring.length_contents, ringCapacity]
      omega
    rw [after]
    exact .enqueue c _ head notFull

/-- Setting UDRIE after the head has moved. -/
theorem Simulates.slowUcsrb
    {m : Machine}
    {command : Command}
    {rest : List Byte}
    {n : Nat}
    {c : Byte}
    {loaded : Option Byte}
    (ok : m.RelayOk)
    (pc : m.pc = .here (.write command rest n c (.slowUcsrb loaded))) :
    Simulates m
      (m.writeStep (.write command rest n c) c (.slowUcsrb loaded)) := by
  have target := ok.position
  rw [PcOk, pc] at target
  have nonempty : ¬ m.tx.Empty := target
  have stutters :
      ∀ {after : Machine}, after.relay = m.relay →
        RelayStep m.relay none after.relay := by
    intro after same
    rw [same]
    exact .stutter
  cases loaded with
  | none =>
      refine ⟨nonempty, ?_, ?_, none, ?_, rfl⟩
      · intro notEnabling
        contradiction
      · simp [Machine.writeStep]
      · apply stutters
        simp only [Machine.relay, Machine.writeStep, pc]
        rfl
  | some ucsrb =>
      refine ⟨trivial, fun _ => ?_, ?_, none, ?_, rfl⟩
      · refine iff_of_true ?_ nonempty
        simp only [Machine.udrie, Machine.writeStep]
        rw [IoFile.bit_store_same _ (by decide), BitVec.getLsbD_or,
          getLsbD_bv]
        simp [udrie0]
      · simp [Machine.writeStep]
      · apply stutters
        simp only [Machine.relay, Machine.writeStep, pc]
        rfl

/-- One step of `HardwareSerial::write`. -/
theorem Simulates.writeStep
    {m : Machine}
    {command : Command}
    {rest : List Byte}
    {n : Nat}
    {c : Byte}
    {position : WriteAt}
    (ok : m.RelayOk)
    (pc : m.pc = .here (.write command rest n c position))
    (notRet : position ≠ .ret) :
    Simulates m
      (m.writeStep (.write command rest n c) c position) := by
  have target := ok.position
  rw [PcOk, pc] at target
  have moves := fun after =>
    @moves m after (.write command rest n c position) ok.udrie pc
  cases position with
  | compareHead =>
      exact moves _ rfl (.moved m _ _ _) rfl rfl rfl
  | compareTail head =>
      rw [Machine.writeStep]
      split
      next same =>
        have empty : m.tx.Empty := (target.symm.trans same).symm
        exact moves _ rfl (.moved m _ _ _) rfl rfl empty
      next =>
        exact moves _ rfl (.moved m _ _ _) rfl rfl trivial
  | testUdre =>
      rw [Machine.writeStep]
      split
      next udre =>
        exact moves _ rfl (.moved m _ _ _) rfl rfl
          ⟨target, udre⟩
      next =>
        exact moves _ rfl (.moved m _ _ _) rfl rfl trivial
  | fastSave | fastCli | slowSave i | slowCli i =>
      exact moves _ rfl (.moved m _ _ _) rfl rfl target
  | fastRestore | slowRestore =>
      exact moves _ rfl (.moved m _ _ _) rfl rfl trivial
  | fastUdr =>
      exact .fastUdr ok pc
  | fastUcsra loaded =>
      cases loaded with
      | none =>
          exact moves _ rfl (.moved m _ _ _) rfl rfl target
      | some ucsra =>
          exact moves _ rfl
            ⟨rfl, rfl, rfl, rfl, IoFile.bit_store_udre _ _ _,
              IoFile.bit_store_other _ (by decide) _ _⟩
            rfl rfl target
  | nextIndex =>
      exact moves _ rfl (.moved m _ _ _) rfl rfl rfl
  | spin i =>
      rw [Machine.writeStep]
      split
      next =>
        exact moves _ rfl (.moved m _ _ _) rfl rfl target
      next apart =>
        have room : ¬ m.tx.Full :=
          fun full => apart (Eq.trans target full)
        exact moves _ rfl (.moved m _ _ _) rfl rfl
          ⟨target, room⟩
  | spinSreg i =>
      have flag := ok.sregI_of_outside pc rfl rfl
      rw [Machine.writeStep, if_neg (by simp [flag])]
      exact moves _ rfl (.moved m _ _ _) rfl rfl target
  | spinUdre i =>
      exact target.elim
  | cellIndex i =>
      exact moves _ rfl (.moved m _ _ _) rfl rfl
        ⟨target, rfl⟩
  | cell i head =>
      obtain ⟨free, rfl⟩ := target
      have follows : m.udrie = true ↔ ¬ m.tx.Empty :=
        ok.udrie (by rw [pc]; rfl)
      refine ⟨⟨⟨free.index, free.room⟩, by simp [Machine.writeStep]⟩,
        fun _ => follows, by simp [Machine.writeStep], none, ?_, rfl⟩
      have after :
          (m.writeStep (.write command rest n c) c
              (.cell i m.tx.wr)).1.relay = m.relay := by
        have unpublished := Ring.contents_fill m.tx c
        simp only [Ring.fill] at unpublished
        simp only [Machine.relay, Machine.writeStep, pc, unpublished]
        rfl
      rw [after]
      exact .stutter
  | slowHead i =>
      exact .slowHead ok pc
  | slowUcsrb loaded =>
      exact .slowUcsrb ok pc
  | ret =>
      exact (notRet rfl).elim

/-- Every step of main is a step of the relay. -/
theorem Simulates.mainStep
    {m : Machine}
    (ok : m.RelayOk) :
    Simulates m m.mainStep := by
  have target := ok.position
  rw [Machine.mainStep]
  cases pc : m.pc with
  | code todo loaded continuation =>
      exact .codeStep ok pc
  | here position =>
      rw [PcOk, pc] at target
      cases position <;> dsimp only
      case construct | init | serialBegin | uartBegin =>
          exact target.elim
      case setTimeout =>
          exact .moves ok.udrie pc rfl (.moved m _ _ _)
            rfl rfl ⟨rfl, trivial⟩
      case loopHead =>
          exact .loopHead ok pc
      case availHead tail =>
          exact .availHead ok pc
      case readHead | readTail | readIndex | readCell
          | readNext | readStore =>
          exact .readStep ok pc rfl
      case translate ret =>
          exact .translate ok pc
      case sendKey | print =>
          exact .printStep ok pc rfl
      case write command rest n c position =>
          by_cases returned : position = .ret
          · subst returned
            exact .printStep ok pc rfl
          · rw [Machine.sendStep]
            · exact .writeStep ok pc returned
            · exact returned

end Machine

end KeyboardEmulator
