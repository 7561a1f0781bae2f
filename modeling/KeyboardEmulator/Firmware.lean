import KeyboardEmulator.KeyboardMapping
import KeyboardEmulator.LabelledRun
import KeyboardEmulator.RingBuffer
import KeyboardEmulator.SerialPorts

namespace KeyboardEmulator

open BootKeyboard (Byte)
open RingBuffer (Ring next)

/-!
# The firmware as a step function

Main runs in steps of at most one access to something it shares with an
interrupt handler.  Handlers run whole, between two steps of main, and only
when the hardware would deliver them.  Each step emits the events that the
relay is judged by: bytes stored, dropped, consumed, translated and handed to
the transmitter.

In the ring of `SoftwareSerial` the read index is `_receive_buffer_head` and
the write index `_receive_buffer_tail`; in the rings of `HardwareSerial` the
read index is the tail and the write index the head.
-/

/-- Where `HardwareSerial::write(c)` is, with the locals live there. -/
inductive WriteAt where
  /-- read `_tx_buffer_head` of the emptiness test -/
  | compareHead
  /-- read `_tx_buffer_tail` of the emptiness test -/
  | compareTail (head : Fin 64)
  /-- `bit_is_set(*_ucsra, UDRE0)` -/
  | testUdre
  /-- direct path: `ATOMIC_BLOCK` around the data register -/
  | fastSave
  | fastCli
  | fastUdr
  | fastUcsra (loaded : Option Byte)
  | fastRestore
  /-- `i = (_tx_buffer_head + 1) % SERIAL_TX_BUFFER_SIZE` -/
  | nextIndex
  /-- `while (i == _tx_buffer_tail)` -/
  | spin (i : Fin 64)
  /-- `bit_is_clear(SREG, SREG_I)` in the loop -/
  | spinSreg (i : Fin 64)
  /-- `bit_is_set(*_ucsra, UDRE0)` in the loop -/
  | spinUdre (i : Fin 64)
  /-- read `_tx_buffer_head` to index the buffer -/
  | cellIndex (i : Fin 64)
  /-- `_tx_buffer[_tx_buffer_head] = c` -/
  | cell (i head : Fin 64)
  /-- buffered path: `ATOMIC_BLOCK` around the head and UDRIE -/
  | slowSave (i : Fin 64)
  | slowCli (i : Fin 64)
  | slowHead (i : Fin 64)
  | slowUcsrb (loaded : Option Byte)
  | slowRestore
  /-- `return 1` -/
  | ret
  deriving Repr, DecidableEq

/-- Which of main's two `Serial.write(buffer, 8)` calls runs. -/
inductive Command where
  | key
  | clear
  deriving Repr, DecidableEq

/-- Where main is outside straight-line register code. -/
inductive Pos where
  | construct
  | init
  | serialBegin
  | uartBegin
  /-- `uart.begin(9600)` has returned -/
  | setTimeout
  | loopHead
  /-- `available()` has read the tail -/
  | availHead (tail : Fin 64)
  /-- `read()`: the head of the emptiness test -/
  | readHead
  | readTail (head : Fin 64)
  | readIndex
  | readCell (index : Fin 64)
  | readNext (d : Byte)
  | readStore (d : Byte) (head : Fin 64)
  | translate (ret : Int)
  | sendKey
  /-- the loop of `Print::write(buffer, size)` with `n` bytes written -/
  | print (command : Command) (buffer : List Byte) (n : Nat)
  | write (command : Command) (rest : List Byte) (n : Nat) (c : Byte)
      (position : WriteAt)
  deriving Repr, DecidableEq

/--
Main's position: straight-line code with a continuation, or a position outside
it.  `loaded` holds the register value between the two halves of a
read-modify-write.
-/
inductive Pc where
  | code (todo : List Access) (loaded : Option Byte) (continuation : Pos)
  | here (position : Pos)
  deriving Repr, DecidableEq

/-- The state of the microcontroller. -/
structure Machine where
  /-- the I bit of `SREG` -/
  sregI : Bool
  io : IoFile
  activeObject : Option SerialObject
  rx : Ring Byte 64
  uart : SoftwareSerial
  serialRx : Ring Byte 64
  tx : Ring Byte 64
  /-- `oldSREG` or `sreg_save` of the section main is in -/
  oldSreg : Bool
  keyboardBuffer : KeyboardBuffer
  /-- `GCC_VERSION` the firmware was compiled with -/
  gccVersion : Nat
  pc : Pc

/-- What a step can be seen to do. -/
inductive Event where
  /-- `recv` stored an arrived byte -/
  | stored (b : Byte)
  /-- `recv` found the buffer full -/
  | dropped (b : Byte)
  /-- `read` advanced the head past this byte -/
  | consumed (b : Byte)
  /-- main passed this value to `translateInput` -/
  | translated (ret : Int)
  /-- a byte was written to UDR0 -/
  | udr (b : Byte)
  deriving Repr, DecidableEq

/-- Steps of main, of the interrupt handlers and of the transmitter. -/
inductive Action where
  | main
  /-- pin change on the UART RX pin: level at the start, then eight samples -/
  | pinChange (startLevel : Bool) (samples : Vector Bool 8)
  /-- USART data register empty -/
  | dataRegisterEmpty
  /-- USART receive complete -/
  | usartReceive (c : Byte) (parityError : Bool)
  /-- the transmitter takes the byte out of UDR0 -/
  | shiftOut
  deriving Repr, DecidableEq

/-- `SoftwareSerial uart(7, 8)`. -/
def constructCode : List Access :=
  SoftwareSerial.setTx false 8 ++ SoftwareSerial.setRx false 7

/-- `Serial.begin(9600)`. -/
def serialBeginCode : List Access :=
  HardwareSerial.beginCode 9600 HardwareSerial.serial8N1

/-- The two LEDs. -/
def isLedPin (pin : Pin) : Prop :=
  pin = 13 ∨ pin = 2

namespace Machine

/-- The value stored back to `UCSR0A` to clear TXC. -/
def clearTxc (ucsra : Byte) : Byte :=
  (ucsra &&& (bv u2x0 ||| bv mpcm0)) ||| bv txc0

/-! ## Interrupt handlers -/

/-- `_tx_udr_empty_irq()`. -/
def txUdrEmptyIrq (m : Machine) : Machine × List Event :=
  let c := m.tx.front
  let tx := m.tx.release
  let written := m.io.force .ucsr0a udre0 false
  let io := written.store .ucsr0a (clearTxc (written .ucsr0a))
  ({ m with
      tx := tx
      io :=
        if tx.wr = tx.rd then
          -- buffer empty, so disable the interrupt
          io.store .ucsr0b (io .ucsr0b &&& ~~~bv udrie0)
        else
          io },
    [.udr c])

/-- `setRxIntMsk(enable)` through the stored mask register and value. -/
def setRxIntMsk (m : Machine) (enable : Bool) : Machine :=
  let reg := m.uart.pcintMaskreg
  let value := m.uart.pcintMaskvalue
  { m with
    io := m.io.store reg
      (if enable then m.io reg ||| value else m.io reg &&& ~~~value) }

/-- The buffer part of `recv()`: store the byte, or note the overflow. -/
def storeReceived (m : Machine) (d : Byte) : Machine × List Event :=
  if next m.rx.wr ≠ m.rx.rd then
    ({ m with rx := (m.rx.fill d).commit }, [.stored d])
  else
    ({ m with uart := { m.uart with bufferOverflow := true } },
      [.dropped d])

/-- `_inverse_logic ? rx_pin_read() : !rx_pin_read()`. -/
def startBit (m : Machine) (startLevel : Bool) : Bool :=
  if m.uart.inverseLogic then startLevel else !startLevel

/-- `recv()`; the line level decides whether there is a start bit at all. -/
def recv (m : Machine) (startLevel : Bool) (samples : Vector Bool 8) :
    Machine × List Event :=
  if m.startBit startLevel then
    let masked := m.setRxIntMsk false
    let sampled := SoftwareSerial.sampleByte samples
    let d := if m.uart.inverseLogic then ~~~sampled else sampled
    let result := masked.storeReceived d
    (result.1.setRxIntMsk true, result.2)
  else
    (m, [])

/-- `handle_interrupt()`. -/
def handleInterrupt
    (m : Machine)
    (startLevel : Bool)
    (samples : Vector Bool 8) : Machine × List Event :=
  match m.activeObject with
  | some .uart =>
      m.recv startLevel samples
  | none =>
      (m, [])

/-- `_rx_complete_irq()` for a received character. -/
def rxCompleteIrq (m : Machine) (c : Byte) (parityError : Bool) : Machine :=
  let received := { m with io := m.io.force .ucsr0a upe0 parityError }
  if received.io.bit .ucsr0a upe0 = false then
    let i := next received.serialRx.wr
    if i ≠ received.serialRx.rd then
      { received with serialRx := (received.serialRx.fill c).commit }
    else
      received
  else
    received

/-- An interrupt clears the I flag on entry and `reti` sets it again. -/
def interrupt
    (m : Machine)
    (handler : Machine → Machine × List Event) : Machine × List Event :=
  let result := handler { m with sregI := false }
  ({ result.1 with sregI := true }, result.2)

/-! ## Straight-line code -/

/-- The effect of one access, except the load half of a read-modify-write. -/
def perform (m : Machine) (loaded : Byte) : Access → Machine
  | .saveSreg =>
      { m with oldSreg := m.sregI }
  | .cli =>
      { m with sregI := false }
  | .restoreSreg =>
      { m with sregI := m.oldSreg }
  | .assign reg value =>
      { m with io := m.io.store reg value }
  | .modify reg keep set =>
      { m with io := m.io.store reg ((loaded &&& keep) ||| set) }
  | .clearOverflow =>
      { m with uart := { m.uart with bufferOverflow := false } }
  | .resetTail =>
      { m with rx := { m.rx with wr := 0 } }
  | .resetHead =>
      { m with rx := { m.rx with rd := 0 } }
  | .setActive object =>
      { m with activeObject := object }
  | .setPcintMask reg value =>
      { m with
        uart := { m.uart with
          pcintMaskreg := reg
          pcintMaskvalue := value } }

/-- One step of straight-line code. -/
def codeStep
    (m : Machine)
    (todo : List Access)
    (loaded : Option Byte)
    (continuation : Pos) : Machine :=
  match todo, loaded with
  | [], _ =>
      { m with pc := .here continuation }
  | .modify reg keep set :: rest, none =>
      { m with
        pc := .code (.modify reg keep set :: rest)
          (some (m.io reg)) continuation }
  | access :: rest, held =>
      { m.perform (held.getD 0) access with
        pc := .code rest none continuation }

/-! ## `HardwareSerial::write` -/

/-- One step of `write(c)`; the caller's frame goes into the new position. -/
def writeStep
    (m : Machine)
    (frame : WriteAt → Pos)
    (c : Byte) : WriteAt → Machine × List Event
  | .compareHead =>
      ({ m with pc := .here (frame (.compareTail m.tx.wr)) }, [])
  | .compareTail head =>
      if head = m.tx.rd then
        ({ m with pc := .here (frame .testUdre) }, [])
      else
        ({ m with pc := .here (frame .nextIndex) }, [])
  | .testUdre =>
      if m.io.bit .ucsr0a udre0 then
        ({ m with pc := .here (frame .fastSave) }, [])
      else
        ({ m with pc := .here (frame .nextIndex) }, [])
  | .fastSave =>
      ({ m with oldSreg := m.sregI, pc := .here (frame .fastCli) }, [])
  | .fastCli =>
      ({ m with sregI := false, pc := .here (frame .fastUdr) }, [])
  | .fastUdr =>
      -- *_udr = c: the data register is no longer empty
      ({ m with
          io := m.io.force .ucsr0a udre0 false
          pc := .here (frame (.fastUcsra none)) },
        [.udr c])
  | .fastUcsra none =>
      ({ m with
          pc := .here (frame (.fastUcsra (some (m.io .ucsr0a)))) }, [])
  | .fastUcsra (some ucsra) =>
      ({ m with
          io := m.io.store .ucsr0a (clearTxc ucsra)
          pc := .here (frame .fastRestore) }, [])
  | .fastRestore =>
      ({ m with sregI := m.oldSreg, pc := .here (frame .ret) }, [])
  | .nextIndex =>
      ({ m with pc := .here (frame (.spin (next m.tx.wr))) }, [])
  | .spin i =>
      if i = m.tx.rd then
        ({ m with pc := .here (frame (.spinSreg i)) }, [])
      else
        ({ m with pc := .here (frame (.cellIndex i)) }, [])
  | .spinSreg i =>
      if m.sregI = false then
        ({ m with pc := .here (frame (.spinUdre i)) }, [])
      else
        -- nop: the interrupt handler will free up space
        ({ m with pc := .here (frame (.spin i)) }, [])
  | .spinUdre i =>
      if m.io.bit .ucsr0a udre0 then
        let polled := m.txUdrEmptyIrq
        ({ polled.1 with pc := .here (frame (.spin i)) }, polled.2)
      else
        ({ m with pc := .here (frame (.spin i)) }, [])
  | .cellIndex i =>
      ({ m with pc := .here (frame (.cell i m.tx.wr)) }, [])
  | .cell i head =>
      ({ m with
          tx := { m.tx with cells := m.tx.cells.set head c }
          pc := .here (frame (.slowSave i)) }, [])
  | .slowSave i =>
      ({ m with
          oldSreg := m.sregI
          pc := .here (frame (.slowCli i)) }, [])
  | .slowCli i =>
      ({ m with sregI := false, pc := .here (frame (.slowHead i)) }, [])
  | .slowHead i =>
      ({ m with
          tx := { m.tx with wr := i }
          pc := .here (frame (.slowUcsrb none)) }, [])
  | .slowUcsrb none =>
      ({ m with
          pc := .here (frame (.slowUcsrb (some (m.io .ucsr0b)))) }, [])
  | .slowUcsrb (some ucsrb) =>
      ({ m with
          io := m.io.store .ucsr0b (ucsrb ||| bv udrie0)
          pc := .here (frame .slowRestore) }, [])
  | .slowRestore =>
      ({ m with sregI := m.oldSreg, pc := .here (frame .ret) }, [])
  | .ret =>
      (m, [])

/-! ## `main` -/

/-- `isListening()`. -/
def isListening (m : Machine) : Bool :=
  m.activeObject == some .uart

/-- The LED code between `uart.setTimeout` and the loop. -/
def ledSetup : List Access :=
  pinMode 13 output ++ pinMode 2 output ++
    digitalWrite 13 low ++ digitalWrite 2 low ++
    blinkLed 100000 13 ++ blinkLed 100000 2

/-- The setup part of main, one call at a time. -/
def setupStep (m : Machine) : Pos → Machine
  | .construct =>
      -- SoftwareSerial uart(7, 8)
      { m with
        uart := m.uart.construct 7 false
        pc := .code constructCode none .init }
  | .init =>
      { m with sregI := true, pc := .code initCode none .serialBegin }
  | .serialBegin =>
      { m with pc := .code serialBeginCode none .uartBegin }
  | .uartBegin =>
      let tuned := m.uart.beginDelays m.gccVersion 9600
      { m with
        uart := tuned
        pc := .code (tuned.beginCode m.activeObject) none .setTimeout }
  | .setTimeout =>
      { m with pc := .code ledSetup none .loopHead }
  | _ =>
      m

/-- `uart.available()` at the loop head and its use. -/
def pollStep (m : Machine) : Pos → Machine
  | .loopHead =>
      let cleared := { m with keyboardBuffer := clearedBuffer }
      if m.isListening then
        { cleared with pc := .here (.availHead m.rx.wr) }
      else
        { cleared with pc := .here .loopHead }
  | .availHead tail =>
      if SoftwareSerial.availableFrom tail m.rx.rd ≠ 0 then
        { m with pc := .code (blinkLed 1000 13) none .readHead }
      else
        { m with pc := .here .loopHead }
  | _ =>
      m

/-- `uart.read()`; its result goes to `translateInput`. -/
def readStep (m : Machine) : Pos → Machine × List Event
  | .readHead =>
      if m.isListening then
        ({ m with pc := .here (.readTail m.rx.rd) }, [])
      else
        ({ m with pc := .here (.translate (-1)) }, [])
  | .readTail head =>
      if head = m.rx.wr then
        ({ m with pc := .here (.translate (-1)) }, [])
      else
        ({ m with pc := .here .readIndex }, [])
  | .readIndex =>
      ({ m with pc := .here (.readCell m.rx.rd) }, [])
  | .readCell index =>
      ({ m with pc := .here (.readNext m.rx.cells[index]) }, [])
  | .readNext d =>
      ({ m with pc := .here (.readStore d m.rx.rd) }, [])
  | .readStore d head =>
      ({ m with
          rx := { m.rx with rd := next head }
          pc := .here (.translate d.toNat) },
        [.consumed d])
  | _ =>
      (m, [])

/-- `translateInput` and the two `Serial.write` calls. -/
def sendStep (m : Machine) : Pos → Machine × List Event
  | .translate ret =>
      let translated :=
        translateInput (BitVec.ofInt 8 ret) m.keyboardBuffer
      ({ m with
          keyboardBuffer := translated.2
          pc :=
            if translated.1 then
              .code (blinkLed 1000 2) none .sendKey
            else
              .here .loopHead },
        [.translated ret])
  | .sendKey =>
      ({ m with pc := .here (.print .key m.keyboardBuffer.toList 0) }, [])
  | .print .key [] _ =>
      ({ m with pc := .here (.print .clear clearCommand.toList 0) }, [])
  | .print .clear [] _ =>
      ({ m with pc := .here .loopHead }, [])
  | .print command (c :: rest) n =>
      ({ m with pc := .here (.write command rest n c .compareHead) }, [])
  | .write command rest n _ .ret =>
      -- write returned 1, so the loop of Print::write goes on
      ({ m with pc := .here (.print command rest (n + 1)) }, [])
  | .write command rest n c position =>
      m.writeStep (.write command rest n c) c position
  | _ =>
      (m, [])

/-- One step of main. -/
def mainStep (m : Machine) : Machine × List Event :=
  match m.pc with
  | .code todo loaded continuation =>
      (m.codeStep todo loaded continuation, [])
  | .here position =>
      match position with
      | .construct | .init | .serialBegin | .uartBegin | .setTimeout =>
          (m.setupStep position, [])
      | .loopHead | .availHead _ =>
          (m.pollStep position, [])
      | .readHead | .readTail _ | .readIndex | .readCell _
      | .readNext _ | .readStore _ _ =>
          m.readStep position
      | .translate _ | .sendKey | .print _ _ _ | .write _ _ _ _ _ =>
          m.sendStep position

/-! ## The system -/

/-- The pin-change interrupt of the UART RX pin is enabled. -/
def pinChangeEnabled (m : Machine) : Bool :=
  m.io.bit .pcicr 2 && m.io.bit .pcmsk2 7

/-- One step of the system; `none` when the action is not enabled. -/
def step? (m : Machine) : Action → Option (Machine × List Event)
  | .main =>
      some m.mainStep
  | .pinChange startLevel samples =>
      if m.sregI && m.pinChangeEnabled then
        some (m.interrupt
          (fun entered => entered.handleInterrupt startLevel samples))
      else
        none
  | .dataRegisterEmpty =>
      if m.sregI && m.io.bit .ucsr0b udrie0 &&
          m.io.bit .ucsr0a udre0 then
        some (m.interrupt txUdrEmptyIrq)
      else
        none
  | .usartReceive c parityError =>
      if m.sregI && m.io.bit .ucsr0b rxcie0 then
        some (m.interrupt
          (fun entered => (entered.rxCompleteIrq c parityError, [])))
      else
        none
  | .shiftOut =>
      if m.io.bit .ucsr0a udre0 then
        none
      else
        some ({ m with io := m.io.force .ucsr0a udre0 true }, [])

/-- The steps of the system, one constructor for each kind of action. -/
inductive Step (m : Machine) : Action → Machine × List Event → Prop where
  | main : Step m .main m.mainStep
  | pinChange
      (enabled : m.sregI = true)
      (unmasked : m.pinChangeEnabled = true)
      (startLevel : Bool)
      (samples : Vector Bool 8) :
      Step m (.pinChange startLevel samples)
        (m.interrupt
          (fun entered => entered.handleInterrupt startLevel samples))
  | dataRegisterEmpty
      (enabled : m.sregI = true)
      (udrie : m.io.bit .ucsr0b udrie0 = true)
      (udre : m.io.bit .ucsr0a udre0 = true) :
      Step m .dataRegisterEmpty (m.interrupt txUdrEmptyIrq)
  | usartReceive
      (enabled : m.sregI = true)
      (rxcie : m.io.bit .ucsr0b rxcie0 = true)
      (c : Byte)
      (parityError : Bool) :
      Step m (.usartReceive c parityError)
        (m.interrupt
          (fun entered => (entered.rxCompleteIrq c parityError, [])))
  | shiftOut
      (udre : m.io.bit .ucsr0a udre0 = false) :
      Step m .shiftOut
        ({ m with io := m.io.force .ucsr0a udre0 true }, [])

/-- Everything an enabled action can do, with the guard that let it happen. -/
theorem step?_inversion
    {m : Machine}
    {action : Action}
    {result : Machine × List Event}
    (stepped : m.step? action = some result) :
    Step m action result := by
  cases action with
  | main =>
      cases stepped
      exact .main
  | pinChange startLevel samples =>
      simp only [step?] at stepped
      split at stepped
      next enabled =>
        cases stepped
        simp only [Bool.and_eq_true] at enabled
        exact .pinChange enabled.1 enabled.2 startLevel samples
      next =>
        contradiction
  | dataRegisterEmpty =>
      simp only [step?] at stepped
      split at stepped
      next enabled =>
        cases stepped
        simp only [Bool.and_eq_true] at enabled
        exact .dataRegisterEmpty enabled.1.1 enabled.1.2 enabled.2
      next =>
        contradiction
  | usartReceive c parityError =>
      simp only [step?] at stepped
      split at stepped
      next enabled =>
        cases stepped
        simp only [Bool.and_eq_true] at enabled
        exact .usartReceive enabled.1 enabled.2 c parityError
      next =>
        contradiction
  | shiftOut =>
      simp only [step?] at stepped
      split at stepped
      next =>
        contradiction
      next udre =>
        cases stepped
        exact .shiftOut (by simpa using udre)

/-- Runs of the firmware. -/
abbrev run? : Machine → List Action → Option (Machine × List Event) :=
  LabelledRun.run? step?

/--
The state at reset: interrupts off, statics zero-initialised, main at its first
statement.  Registers, locals and the uninitialised object are arbitrary.
-/
structure Reset (m : Machine) : Prop where
  interruptsOff : m.sregI = false
  atStart : m.pc = .here .construct
  inactive : m.activeObject = none
  rxEmpty : m.rx.rd = 0 ∧ m.rx.wr = 0
  txEmpty : m.tx.rd = 0 ∧ m.tx.wr = 0
  serialRxEmpty : m.serialRx.rd = 0 ∧ m.serialRx.wr = 0

/-- The microcontroller after power-on, with the register values it then has. -/
def powerOn : Machine where
  sregI := false
  io reg := if reg = .ucsr0a then bv udre0 else 0
  activeObject := none
  rx := { cells := Vector.replicate 64 0, rd := 0, wr := 0 }
  uart :=
    { receivePin := 0
      pcintMaskreg := .pcmsk0
      pcintMaskvalue := 0
      rxDelayCentering := 0
      rxDelayIntrabit := 0
      rxDelayStopbit := 0
      txDelay := 0
      bufferOverflow := false
      inverseLogic := false }
  serialRx := { cells := Vector.replicate 64 0, rd := 0, wr := 0 }
  tx := { cells := Vector.replicate 64 0, rd := 0, wr := 0 }
  oldSreg := false
  keyboardBuffer := Vector.replicate 8 0
  gccVersion := 50400
  pc := .here .construct

theorem powerOn_reset : powerOn.Reset :=
  ⟨rfl, rfl, rfl, ⟨rfl, rfl⟩, ⟨rfl, rfl⟩, ⟨rfl, rfl⟩⟩

/-- Main alone for a number of steps. -/
def mainSteps (m : Machine) : Nat → Machine
  | 0 => m
  | n + 1 => m.mainStep.1.mainSteps n

/-- Main can always take a step. -/
theorem run?_mainSteps (n : Nat) (m : Machine) :
    ∃ events,
      run? m (List.replicate n .main) = some (m.mainSteps n, events) := by
  induction n generalizing m with
  | zero =>
      exact ⟨[], rfl⟩
  | succ n inductionHypothesis =>
      obtain ⟨events, ran⟩ := inductionHypothesis m.mainStep.1
      exact ⟨m.mainStep.2 ++ events,
        LabelledRun.run?_cons_iff.mpr
          ⟨m.mainStep.1, m.mainStep.2, events, rfl, ran, rfl⟩⟩

end Machine

end KeyboardEmulator
