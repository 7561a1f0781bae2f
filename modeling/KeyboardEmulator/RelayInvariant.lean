import KeyboardEmulator.BoundedRelay
import KeyboardEmulator.ReceiverReady

namespace KeyboardEmulator

open BootKeyboard (Byte)
open RingBuffer (Ring next)

/-!
# What main's position says about the two rings

Main looks at a ring in one step and acts on what it saw in a later one, while
handlers move the other end.  For every position the values main has read are
related to the rings as they are now.  From position and rings the relay that
the firmware implements is read off.
-/

namespace WriteAt

/-- The byte being written is already in the ring or in UDR0. -/
def committed : WriteAt → Bool
  | .fastUcsra _ | .fastRestore | .slowUcsrb _ | .slowRestore | .ret => true
  | _ => false

/-- The head has moved and UDRIE is about to be set. -/
def enabling : WriteAt → Bool
  | .slowUcsrb _ => true
  | _ => false

end WriteAt

namespace Pos

def enabling : Pos → Bool
  | .write _ _ _ _ position => position.enabling
  | _ => false

/-- The value `translateInput` is about to get. -/
def pending : Pos → Option Byte
  | .translate ret => some (BitVec.ofInt 8 ret)
  | _ => none

/-- What follows the buffer that is being written. -/
def commandRest : Command → List Byte
  | .key => clearCommand.toList
  | .clear => []

/-- The bytes main has still to write before it is back at the loop head. -/
def owed (buffer : KeyboardBuffer) : Pos → List Byte
  | .sendKey =>
      buffer.toList ++ clearCommand.toList
  | .print command bytes _ =>
      bytes ++ commandRest command
  | .write command rest _ c position =>
      (if position.committed then [] else [c]) ++
        (rest ++ commandRest command)
  | _ =>
      []

/-- Until it is committed the byte being written is the next one owed. -/
theorem owed_uncommitted
    (buffer : KeyboardBuffer)
    (command : Command)
    (rest : List Byte)
    (n : Nat)
    (c : Byte)
    {position : WriteAt}
    (uncommitted : position.committed = false) :
    owed buffer (.write command rest n c position) =
      c :: (rest ++ commandRest command) := by
  rw [owed, uncommitted]
  rfl

/-- The positions that LED code of the loop continues at. -/
def followsLed : Pos → Bool
  | .loopHead | .readHead | .sendKey => true
  | _ => false

end Pos

namespace Pc

/-- The position main is at, or will be at after straight-line code. -/
def target : Pc → Pos
  | .code _ _ continuation => continuation
  | .here position => position

/-- Main is at a position, not in straight-line code before it. -/
def pending : Pc → Option Byte
  | .code _ _ _ => none
  | .here position => position.pending

def enabling : Pc → Bool
  | .code _ _ _ => false
  | .here position => position.enabling

end Pc

namespace Machine

/-- The relay that the firmware implements. -/
def relay (m : Machine) : BoundedRelay.State Byte Byte where
  unread := m.rx.contents
  pending := m.pc.pending
  owed := m.pc.target.owed m.keyboardBuffer
  queued := m.tx.contents

/-- The data register is empty. -/
def udre (m : Machine) : Bool :=
  m.io.bit .ucsr0a udre0

/-- The data-register-empty interrupt is enabled. -/
def udrie (m : Machine) : Bool :=
  m.io.bit .ucsr0b udrie0

/-- The slot `write` is about to use is free, and `i` is the index after it. -/
structure SlotFree (tx : Ring Byte 64) (i : Fin 64) : Prop where
  index : i = next tx.wr
  room : ¬ tx.Full

/-- What `write(c)` has read still says about the transmit ring. -/
def WriteOk (m : Machine) (c : Byte) : WriteAt → Prop
  | .compareHead | .nextIndex | .slowRestore | .ret =>
      True
  | .compareTail head =>
      head = m.tx.wr
  | .testUdre | .fastUcsra _ | .fastRestore =>
      m.tx.Empty
  | .fastSave | .fastCli | .fastUdr =>
      m.tx.Empty ∧ m.udre = true
  | .spin i | .spinSreg i =>
      i = next m.tx.wr
  | .spinUdre _ =>
      False
  | .cellIndex i =>
      SlotFree m.tx i
  | .cell i head =>
      SlotFree m.tx i ∧ head = m.tx.wr
  | .slowSave i | .slowCli i | .slowHead i =>
      SlotFree m.tx i ∧ m.tx.cells[m.tx.wr] = c
  | .slowUcsrb _ =>
      ¬ m.tx.Empty

/-- A received byte waits in the receive ring and the key buffer is clear. -/
structure ByteWaits (buffer : KeyboardBuffer) (rx : Ring Byte 64) : Prop where
  cleared : buffer = clearedBuffer
  nonempty : ¬ rx.Empty

/-- What main has read still says about the rings. -/
def PosOk (m : Machine) : Pos → Prop
  | .construct | .init | .serialBegin | .uartBegin =>
      False
  | .setTimeout | .loopHead | .sendKey | .print _ _ _ =>
      True
  | .availHead tail =>
      m.keyboardBuffer = clearedBuffer ∧
        (tail ≠ m.rx.rd → ¬ m.rx.Empty)
  | .readHead | .readIndex =>
      ByteWaits m.keyboardBuffer m.rx
  | .readTail head =>
      ByteWaits m.keyboardBuffer m.rx ∧ head = m.rx.rd
  | .readCell index =>
      ByteWaits m.keyboardBuffer m.rx ∧ index = m.rx.rd
  | .readNext d =>
      ByteWaits m.keyboardBuffer m.rx ∧ d = m.rx.front
  | .readStore d head =>
      ByteWaits m.keyboardBuffer m.rx ∧ d = m.rx.front ∧ head = m.rx.rd
  | .translate ret =>
      m.keyboardBuffer = clearedBuffer ∧ ∃ d : Byte, ret = d.toNat
  | .write _ _ _ c position =>
      m.WriteOk c position

/-- Main is at or before such a position; straight-line code is LED code. -/
def PcOk (m : Machine) : Prop :=
  match m.pc with
  | .code _ _ continuation =>
      continuation.followsLed = true ∧ m.PosOk continuation
  | .here position =>
      m.PosOk position

/-- UDRIE follows the transmit ring, except between moving the head and it. -/
def UdrieFollows (m : Machine) : Prop :=
  m.pc.enabling = false → (m.udrie = true ↔ ¬ m.tx.Empty)

/-- What holds in every state after `uart.begin` has returned. -/
structure RelayOk (m : Machine) : Prop where
  ready : m.Ready
  position : m.PcOk
  udrie : m.UdrieFollows

/-- The invariant holds only after `uart.begin` has returned. -/
theorem RelayOk.returned
    {m : Machine}
    (ok : m.RelayOk) :
    m.pc.returned = true := by
  have position := ok.position
  rw [PcOk] at position
  cases pc : m.pc with
  | code todo loaded continuation =>
      rw [pc] at position
      have followsLed := position.1
      cases continuation <;> first | rfl | contradiction
  | here position' =>
      rw [pc] at position
      cases position' <;> first | rfl | exact position.elim

theorem RelayOk.isListening
    {m : Machine}
    (ok : m.RelayOk) :
    m.isListening = true := by
  rw [Machine.isListening, (ok.ready.active ok.returned).active]
  rfl

/-- The code main runs after `uart.begin` is LED code. -/
theorem RelayOk.confinedCode
    {m : Machine}
    (ok : m.RelayOk)
    {todo : List Access}
    {loaded : Option Byte}
    {continuation : Pos}
    (pc : m.pc = .code todo loaded continuation) :
    ConfinedCode ledBits m.io todo loaded := by
  have position := ok.position
  have phase := ok.ready.phase
  rw [PcOk, pc] at position
  rw [Phase, pc] at phase
  have followsLed := position.1
  cases continuation <;>
    first
      | exact phase.code
      | contradiction

/-- In `write`, before the byte is committed. -/
theorem relay_owed_uncommitted
    {m : Machine}
    {command : Command}
    {rest : List Byte}
    {n : Nat}
    {c : Byte}
    {position : WriteAt}
    (pc : m.pc = .here (.write command rest n c position))
    (uncommitted : position.committed = false) :
    m.relay.owed = c :: (rest ++ Pos.commandRest command) := by
  rw [relay, pc]
  exact Pos.owed_uncommitted m.keyboardBuffer command rest n c uncommitted

/-! ## What the invariant depends on -/

/-- The parts of the state that make up the relay. -/
structure SameRelay (before after : Machine) : Prop where
  rx : after.rx = before.rx
  tx : after.tx = before.tx
  keyboardBuffer : after.keyboardBuffer = before.keyboardBuffer
  overflow : after.uart.bufferOverflow = before.uart.bufferOverflow
  udre : after.udre = before.udre
  udrie : after.udrie = before.udrie

/-- The relay is not made of main's position and the interrupt flag. -/
theorem SameRelay.moved
    (m : Machine)
    (sregI oldSreg : Bool)
    (pc : Pc) :
    SameRelay m { m with sregI := sregI, oldSreg := oldSreg, pc := pc } :=
  ⟨rfl, rfl, rfl, rfl, rfl, rfl⟩

theorem SameRelay.trans
    {first second third : Machine}
    (early : SameRelay first second)
    (late : SameRelay second third) :
    SameRelay first third where
  rx := late.rx.trans early.rx
  tx := late.tx.trans early.tx
  keyboardBuffer := late.keyboardBuffer.trans early.keyboardBuffer
  overflow := late.overflow.trans early.overflow
  udre := late.udre.trans early.udre
  udrie := late.udrie.trans early.udrie

variable {before after : Machine}

theorem writeOk_congr
    (sameTx : after.tx = before.tx)
    (sameUdre : after.udre = before.udre)
    (c : Byte)
    (position : WriteAt) :
    after.WriteOk c position ↔ before.WriteOk c position := by
  cases position <;> simp only [WriteOk, sameTx, sameUdre]

theorem posOk_congr
    (same : SameRelay before after)
    (position : Pos) :
    after.PosOk position ↔ before.PosOk position := by
  cases position
  case write command rest n c position =>
      exact writeOk_congr same.tx same.udre c position
  all_goals
    simp only [PosOk, same.rx, same.keyboardBuffer]

end Machine

end KeyboardEmulator
