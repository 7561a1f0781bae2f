import KeyboardEmulator.LabelledRun
import KeyboardEmulator.RingBuffer
import KeyboardEmulator.SerialPorts
import Mathlib.Logic.Function.Basic

namespace KeyboardEmulator

open RingBuffer (Ring next)

/-!
# Many `SoftwareSerial` objects

All objects share one receive ring, and at most one of them is active.  A client
calls methods of any of them in any order.  Between any two of its accesses the
pin-change handler may run, whatever the mask bits are: a change that was noted
before its mask bit was cleared still interrupts.
-/

theorem ssMaxRxBuff_pos : 0 < ssMaxRxBuff := by
  decide

/-- Index 0 of the receive buffer. -/
def bufferStart : Fin 64 :=
  ⟨0, ssMaxRxBuff_pos⟩

/-- An object just constructed; what the constructor leaves alone is zero. -/
def SoftwareSerial.onPin (pin : Pin) : SoftwareSerial :=
  construct
    { receivePin := pin
      pcintMaskreg := .pcmsk0
      pcintMaskvalue := 0
      rxDelayCentering := 0
      rxDelayIntrabit := 0
      rxDelayStopbit := 0
      txDelay := 0
      bufferOverflow := false
      inverseLogic := false }
    pin false

/-- The assignments that `begin` starts with. -/
def SoftwareSerial.zeroDelays (object : SoftwareSerial) : SoftwareSerial :=
  { object with
    rxDelayCentering := 0
    rxDelayIntrabit := 0
    rxDelayStopbit := 0
    txDelay := 0 }

/--
The delays `begin` computes for any speed: `bit_delay * 3` is a 16-bit product,
which wraps below 184 baud.
-/
def SoftwareSerial.tuneDelays
    (object : SoftwareSerial)
    (gccVersion speed : Nat) : SoftwareSerial :=
  { object.beginDelays gccVersion speed with
    rxDelayStopbit :=
      subtractCap (bitDelay speed * 3 % 65536 / 4)
        (if gccVersion > 40800 then (37 + 11) / 4 else (44 + 17) / 4) }

theorem SoftwareSerial.tuneDelays_eq
    (object : SoftwareSerial)
    (gccVersion : Nat)
    {speed : Nat}
    (fits : bitDelay speed * 3 < 65536) :
    object.tuneDelays gccVersion speed =
      object.beginDelays gccVersion speed := by
  rw [tuneDelays, Nat.mod_eq_of_lt fits, beginDelays]
  split <;> rfl

/-- `_inverse_logic ? rx_pin_read() : !rx_pin_read()`. -/
def SoftwareSerial.startBit
    (object : SoftwareSerial)
    (startLevel : Bool) : Bool :=
  if object.inverseLogic then startLevel else !startLevel

/-- The byte that `recv` makes of its samples. -/
def SoftwareSerial.received
    (object : SoftwareSerial)
    (samples : Vector Bool 8) : BitVec 8 :=
  if object.inverseLogic then ~~~sampleByte samples else sampleByte samples

/-- Where a call is; the methods of the receive side of `SoftwareSerial`. -/
inductive CallAt (ι : Type) where
  | client
  /-- `begin(speed)` has zeroed the delays -/
  | beginDelays (o : ι) (speed : Nat)
  /-- `listen()`: `if (!_rx_delay_stopbit)` -/
  | listenStopbit (o : ι)
  /-- `if (active_object != this)`, and the test for another object -/
  | listenActive (o : ι)
  /-- `stopListening()` of the active object `p`, for `listen` of another -/
  | stopTest (p : ι) (opening : Option ι)
  | stopMask (p : ι) (opening : Option ι) (loaded : Option (ι → Bool))
  | stopActive (p : ι) (opening : Option ι)
  | listenOverflow (o : ι)
  | listenTail (o : ι)
  | listenHead (o : ι)
  | listenThis (o : ι)
  | listenMask (o : ι) (loaded : Option (ι → Bool))
  /-- `read()`, `peek()` and `available()`: `isListening()` -/
  | readTest (o : ι)
  | readHead (o : ι)
  | readTail (o : ι) (head : Fin 64)
  | readIndex (o : ι)
  | readCell (o : ι) (index : Fin 64)
  | readNext (o : ι) (d : BitVec 8)
  | readStore (o : ι) (d : BitVec 8) (head : Fin 64)
  | peekTest (o : ι)
  | peekHead (o : ι)
  | peekTail (o : ι) (head : Fin 64)
  | peekIndex (o : ι)
  | peekCell (o : ι) (index : Fin 64)
  | availableTest (o : ι)
  | availableTail (o : ι)
  | availableHead (o : ι) (tail : Fin 64)
  /-- `overflow()`: `bool ret = _buffer_overflow`, then `if (ret)` -/
  | overflowTest (o : ι)
  | overflowClear (o : ι)

/-- The objects, what they share, and the client. -/
structure ListeningPorts (ι : Type) where
  objects : ι → SoftwareSerial
  /-- `active_object` -/
  active : Option ι
  /-- the receive buffer: `rd` is its head, `wr` its tail -/
  ring : Ring (BitVec 8) 64
  /-- the bit of each object's pin in the pin-change mask -/
  mask : ι → Bool
  gccVersion : Nat
  location : CallAt ι

namespace ListeningPorts

variable {ι : Type}

/-- What a step can be seen to do. -/
inductive Event (ι : Type) where
  /-- `active_object = this` -/
  | listening (o : ι)
  /-- `active_object = NULL` -/
  | stopped (o : ι)
  /-- `_buffer_overflow = false` of `listen` -/
  | cleared (o : ι)
  | stored (o : ι) (d : BitVec 8)
  | dropped (o : ι) (d : BitVec 8)
  | readGave (o : ι) (ret : Int)
  | peekGave (o : ι) (ret : Int)
  | availableGave (o : ι) (count : Nat)
  | overflowGave (o : ι) (ret : Bool)
  deriving Repr, DecidableEq

/-- The methods a client calls; `end` is `stopListening`. -/
inductive Method where
  | begin (speed : Nat)
  | listen
  | stopListening
  | read
  | peek
  | available
  | overflow
  deriving Repr, DecidableEq

inductive Action (ι : Type) where
  | call (o : ι) (method : Method)
  | run
  /-- the handler finds this line level, and then these samples -/
  | pinChange (startLevel : Bool) (samples : Vector Bool 8)
  deriving Repr, DecidableEq

variable [DecidableEq ι]

/-- Change the fields of one object. -/
def modify
    (s : ListeningPorts ι)
    (o : ι)
    (change : SoftwareSerial → SoftwareSerial) : ι → SoftwareSerial :=
  Function.update s.objects o (change (s.objects o))

/-! ## Calls -/

/-- The client calls a method. -/
def enter (s : ListeningPorts ι) (o : ι) : Method → ListeningPorts ι
  | .begin speed =>
      { s with
        objects := s.modify o SoftwareSerial.zeroDelays
        location := .beginDelays o speed }
  | .listen =>
      { s with location := .listenStopbit o }
  | .stopListening =>
      { s with location := .stopTest o none }
  | .read =>
      { s with location := .readTest o }
  | .peek =>
      { s with location := .peekTest o }
  | .available =>
      { s with location := .availableTest o }
  | .overflow =>
      { s with location := .overflowTest o }

/-- Leave `stopListening`, back to the `listen` that called it or to the client. -/
def afterStop : Option ι → CallAt ι
  | some o => .listenOverflow o
  | none => .client

/-- `begin` and `listen`. -/
def listenStep (s : ListeningPorts ι) :
    CallAt ι → ListeningPorts ι × List (Event ι)
  | .beginDelays o speed =>
      ({ s with
          objects := s.modify o (·.tuneDelays s.gccVersion speed)
          location := .listenStopbit o }, [])
  | .listenStopbit o =>
      if (s.objects o).rxDelayStopbit = 0 then
        ({ s with location := .client }, [])
      else
        ({ s with location := .listenActive o }, [])
  | .listenActive o =>
      match s.active with
      | none =>
          ({ s with location := .listenOverflow o }, [])
      | some p =>
          if p = o then
            ({ s with location := .client }, [])
          else
            ({ s with location := .stopTest p (some o) }, [])
  | .listenOverflow o =>
      ({ s with
          objects := s.modify o ({ · with bufferOverflow := false })
          location := .listenTail o }, [.cleared o])
  | .listenTail o =>
      ({ s with
          ring := { s.ring with wr := bufferStart }
          location := .listenHead o }, [])
  | .listenHead o =>
      ({ s with
          ring := { s.ring with rd := bufferStart }
          location := .listenThis o }, [])
  | .listenThis o =>
      ({ s with active := some o, location := .listenMask o none },
        [.listening o])
  | .listenMask o none =>
      ({ s with location := .listenMask o (some s.mask) }, [])
  | .listenMask o (some loaded) =>
      ({ s with
          mask := Function.update loaded o true
          location := .client }, [])
  | _ =>
      (s, [])

/-- `stopListening`. -/
def stopStep (s : ListeningPorts ι) :
    CallAt ι → ListeningPorts ι × List (Event ι)
  | .stopTest p opening =>
      if s.active = some p then
        ({ s with location := .stopMask p opening none }, [])
      else
        ({ s with location := afterStop opening }, [])
  | .stopMask p opening none =>
      ({ s with location := .stopMask p opening (some s.mask) }, [])
  | .stopMask p opening (some loaded) =>
      ({ s with
          mask := Function.update loaded p false
          location := .stopActive p opening }, [])
  | .stopActive p opening =>
      ({ s with active := none, location := afterStop opening },
        [.stopped p])
  | _ =>
      (s, [])

/-- `read`. -/
def readStep (s : ListeningPorts ι) :
    CallAt ι → ListeningPorts ι × List (Event ι)
  | .readTest o =>
      if s.active = some o then
        ({ s with location := .readHead o }, [])
      else
        ({ s with location := .client }, [.readGave o (-1)])
  | .readHead o =>
      ({ s with location := .readTail o s.ring.rd }, [])
  | .readTail o head =>
      if head = s.ring.wr then
        ({ s with location := .client }, [.readGave o (-1)])
      else
        ({ s with location := .readIndex o }, [])
  | .readIndex o =>
      ({ s with location := .readCell o s.ring.rd }, [])
  | .readCell o index =>
      ({ s with location := .readNext o (s.ring.cells.get index) }, [])
  | .readNext o d =>
      ({ s with location := .readStore o d s.ring.rd }, [])
  | .readStore o d head =>
      ({ s with ring := { s.ring with rd := next head }, location := .client },
        [.readGave o d.toNat])
  | _ =>
      (s, [])

/-- `peek`. -/
def peekStep (s : ListeningPorts ι) :
    CallAt ι → ListeningPorts ι × List (Event ι)
  | .peekTest o =>
      if s.active = some o then
        ({ s with location := .peekHead o }, [])
      else
        ({ s with location := .client }, [.peekGave o (-1)])
  | .peekHead o =>
      ({ s with location := .peekTail o s.ring.rd }, [])
  | .peekTail o head =>
      if head = s.ring.wr then
        ({ s with location := .client }, [.peekGave o (-1)])
      else
        ({ s with location := .peekIndex o }, [])
  | .peekIndex o =>
      ({ s with location := .peekCell o s.ring.rd }, [])
  | .peekCell o index =>
      ({ s with location := .client },
        [.peekGave o (s.ring.cells.get index).toNat])
  | _ =>
      (s, [])

/-- `available` and `overflow`. -/
def statusStep (s : ListeningPorts ι) :
    CallAt ι → ListeningPorts ι × List (Event ι)
  | .availableTest o =>
      if s.active = some o then
        ({ s with location := .availableTail o }, [])
      else
        ({ s with location := .client }, [.availableGave o 0])
  | .availableTail o =>
      ({ s with location := .availableHead o s.ring.wr }, [])
  | .availableHead o tail =>
      ({ s with location := .client },
        [.availableGave o (SoftwareSerial.availableFrom tail s.ring.rd)])
  | .overflowTest o =>
      if (s.objects o).bufferOverflow then
        ({ s with location := .overflowClear o }, [])
      else
        ({ s with location := .client }, [.overflowGave o false])
  | .overflowClear o =>
      ({ s with
          objects := s.modify o ({ · with bufferOverflow := false })
          location := .client }, [.overflowGave o true])
  | _ =>
      (s, [])

/-- One step of the call. -/
def runStep (s : ListeningPorts ι) : ListeningPorts ι × List (Event ι) :=
  match s.location with
  | .client =>
      (s, [])
  | .beginDelays _ _ | .listenStopbit _ | .listenActive _
  | .listenOverflow _ | .listenTail _ | .listenHead _ | .listenThis _
  | .listenMask _ _ =>
      s.listenStep s.location
  | .stopTest _ _ | .stopMask _ _ _ | .stopActive _ _ =>
      s.stopStep s.location
  | .readTest _ | .readHead _ | .readTail _ _ | .readIndex _
  | .readCell _ _ | .readNext _ _ | .readStore _ _ _ =>
      s.readStep s.location
  | .peekTest _ | .peekHead _ | .peekTail _ _ | .peekIndex _
  | .peekCell _ _ =>
      s.peekStep s.location
  | .availableTest _ | .availableTail _ | .availableHead _ _
  | .overflowTest _ | .overflowClear _ =>
      s.statusStep s.location

/-! ## The handler -/

/-- The buffer part of `recv()`: store the byte, or note the overflow. -/
def storeReceived
    (s : ListeningPorts ι)
    (o : ι)
    (d : BitVec 8) : ListeningPorts ι × List (Event ι) :=
  if next s.ring.wr ≠ s.ring.rd then
    ({ s with ring := (s.ring.fill d).commit }, [.stored o d])
  else
    ({ s with objects := s.modify o ({ · with bufferOverflow := true }) },
      [.dropped o d])

/-- `recv()` of an object. -/
def recv
    (s : ListeningPorts ι)
    (o : ι)
    (startLevel : Bool)
    (samples : Vector Bool 8) : ListeningPorts ι × List (Event ι) :=
  if (s.objects o).startBit startLevel then
    let masked := { s with mask := Function.update s.mask o false }
    let result := masked.storeReceived o ((s.objects o).received samples)
    ({ result.1 with mask := Function.update result.1.mask o true }, result.2)
  else
    (s, [])

/-- `handle_interrupt()`. -/
def handleInterrupt
    (s : ListeningPorts ι)
    (startLevel : Bool)
    (samples : Vector Bool 8) : ListeningPorts ι × List (Event ι) :=
  match s.active with
  | some o => s.recv o startLevel samples
  | none => (s, [])

/-! ## The system -/

/-- No method runs. -/
def idle (s : ListeningPorts ι) : Bool :=
  match s.location with
  | .client => true
  | _ => false

/-- One step of the system; `none` when the action is not enabled. -/
def step? (s : ListeningPorts ι) :
    Action ι → Option (ListeningPorts ι × List (Event ι))
  | .call o method =>
      if s.idle then some (s.enter o method, []) else none
  | .run =>
      if s.idle then none else some s.runStep
  | .pinChange startLevel samples =>
      some (s.handleInterrupt startLevel samples)

/-- Runs of the system. -/
abbrev run? :
    ListeningPorts ι → List (Action ι) →
      Option (ListeningPorts ι × List (Event ι)) :=
  LabelledRun.run? step?

end ListeningPorts

end KeyboardEmulator
