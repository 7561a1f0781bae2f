import KeyboardEmulator.Firmware

namespace KeyboardEmulator

open BootKeyboard (Byte)
open RingBuffer (Ring next)

/-!
# `Serial` under an arbitrary client

Main only writes to `Serial`.  Here any client calls any of its methods, in any
order and with interrupts on or off, while the handlers run and the transmitter
shifts frames out.  The client's code between two calls is left open, except
that it calls one method at a time.  What a client has to keep to is said about
its calls, not built into the steps.
-/

/-- Where `flush()` is. -/
inductive FlushAt where
  /-- `if (!_written)` -/
  | testWritten
  /-- `bit_is_set(*_ucsrb, UDRIE0)` of the loop test -/
  | testUdrie
  /-- `bit_is_clear(*_ucsra, TXC0)` of the loop test -/
  | testTxc
  /-- `bit_is_clear(SREG, SREG_I)` in the loop -/
  | testSreg
  /-- `bit_is_set(*_ucsrb, UDRIE0)` in the loop -/
  | testUdrieOff
  /-- `bit_is_set(*_ucsra, UDRE0)` in the loop, and the call it guards -/
  | testUdre
  | ret
  deriving Repr, DecidableEq

/-- The methods a client calls. -/
inductive Method where
  | begin (baud : Nat) (config : BitVec 8)
  | end
  | available
  | peek
  | read
  | availableForWrite
  | flush
  | write (c : Byte)
  deriving Repr, DecidableEq

/-- The method that runs, and where it is. -/
inductive At where
  /-- the client's own code -/
  | client
  /-- the register code of `begin`, or of `end` after its `flush` -/
  | code (opening : Bool) (todo : List Access) (loaded : Option Byte)
  /-- `_rx_buffer_head = _rx_buffer_tail` of `end` -/
  | endTail
  | endHead (tail : Fin 64)
  /-- `available()`: the head, then the tail -/
  | availableHead
  | availableTail (head : Fin 64)
  | peekHead
  | peekTail (head : Fin 64)
  | peekIndex
  | peekCell (index : Fin 64)
  | readHead
  | readTail (head : Fin 64)
  | readIndex
  | readCell (index : Fin 64)
  | readNext (c : Byte)
  | readStore (c : Byte) (tail : Fin 64)
  /-- `availableForWrite()`: the head, then the tail -/
  | roomHead
  | roomTail (head : Fin 64)
  /-- `flush()`, called by the client or by `end` -/
  | flush (ending : Bool) (position : FlushAt)
  | write (c : Byte) (position : WriteAt)
  deriving Repr, DecidableEq

/-- `Serial`, the transmitter behind it and the client in front of it. -/
structure Usart where
  m : Machine
  /-- `_written` -/
  written : Bool
  /-- what was last written to UDR0 -/
  udr : Byte
  /-- the frame in the transmit shift register -/
  shifting : Option Byte
  /-- the interrupt flag as the client left it -/
  flag : Bool
  location : At

namespace Usart

/-- What a step can be seen to do. -/
inductive Event where
  /-- the client called `write(c)` -/
  | writing (c : Byte)
  /-- `write` has returned -/
  | wrote
  /-- the last bit of a frame is out -/
  | finished (b : Byte)
  /-- the receive handler stored a character -/
  | received (c : Byte)
  /-- the receive handler did not store a character -/
  | refused (c : Byte)
  | availableGave (count : Nat)
  | peekGave (ret : Int)
  | readGave (ret : Int)
  | availableForWriteGave (count : Nat)
  | flushed
  /-- `end` has returned, and these received characters are gone -/
  | ended (discarded : List Byte)
  deriving Repr, DecidableEq

/-- Steps of the client, of the method it called, of handlers and hardware. -/
inductive Action where
  | call (method : Method)
  /-- the client sets or clears the interrupt flag -/
  | setFlag (flag : Bool)
  | run
  | dataRegisterEmpty
  | usartReceive (c : Byte) (parityError : Bool)
  /-- the byte in UDR0 moves on to the shift register -/
  | load
  /-- the frame in the shift register is out -/
  | finish
  deriving Repr, DecidableEq

/-- `end()` after its call of `flush`. -/
def endCode : List Access :=
  [cbi .ucsr0b rxen0, cbi .ucsr0b txen0, cbi .ucsr0b rxcie0,
    cbi .ucsr0b udrie0]

/-! ## Calls -/

/-- The client enters a method. -/
def enter (u : Usart) : Method → Usart × List Event
  | .begin baud config =>
      ({ u with
          written := false
          location := .code true (HardwareSerial.beginCode baud config) none },
        [])
  | .end =>
      ({ u with location := .flush true .testWritten }, [])
  | .available =>
      ({ u with location := .availableHead }, [])
  | .peek =>
      ({ u with location := .peekHead }, [])
  | .read =>
      ({ u with location := .readHead }, [])
  | .availableForWrite =>
      ({ u with location := .roomHead }, [])
  | .flush =>
      ({ u with location := .flush false .testWritten }, [])
  | .write c =>
      ({ u with written := true, location := .write c .compareHead },
        [.writing c])

/-! ## Methods -/

/-- One step of register code. -/
def codeStep
    (u : Usart)
    (opening : Bool)
    (todo : List Access)
    (loaded : Option Byte) : Usart :=
  match todo, loaded with
  | [], _ =>
      { u with location := if opening then .client else .endTail }
  | .modify reg keep set :: rest, none =>
      { u with
        location :=
          .code opening (.modify reg keep set :: rest) (some (u.m.io reg)) }
  | access :: rest, held =>
      { u with
        m := u.m.perform (held.getD 0) access
        location := .code opening rest none }

/-- The end of `end()`. -/
def endStep (u : Usart) : At → Usart × List Event
  | .endTail =>
      ({ u with location := .endHead u.m.serialRx.rd }, [])
  | .endHead tail =>
      ({ u with
          m := { u.m with serialRx := { u.m.serialRx with wr := tail } }
          location := .client },
        [.ended u.m.serialRx.contents])
  | _ =>
      (u, [])

/-- `available()`. -/
def availableStep (u : Usart) : At → Usart × List Event
  | .availableHead =>
      ({ u with location := .availableTail u.m.serialRx.wr }, [])
  | .availableTail head =>
      ({ u with location := .client },
        [.availableGave ((64 + head.val - u.m.serialRx.rd.val) % 64)])
  | _ =>
      (u, [])

/-- `peek()`. -/
def peekStep (u : Usart) : At → Usart × List Event
  | .peekHead =>
      ({ u with location := .peekTail u.m.serialRx.wr }, [])
  | .peekTail head =>
      if head = u.m.serialRx.rd then
        ({ u with location := .client }, [.peekGave (-1)])
      else
        ({ u with location := .peekIndex }, [])
  | .peekIndex =>
      ({ u with location := .peekCell u.m.serialRx.rd }, [])
  | .peekCell index =>
      ({ u with location := .client },
        [.peekGave (u.m.serialRx.cells.get index).toNat])
  | _ =>
      (u, [])

/-- `read()`. -/
def readStep (u : Usart) : At → Usart × List Event
  | .readHead =>
      ({ u with location := .readTail u.m.serialRx.wr }, [])
  | .readTail head =>
      if head = u.m.serialRx.rd then
        ({ u with location := .client }, [.readGave (-1)])
      else
        ({ u with location := .readIndex }, [])
  | .readIndex =>
      ({ u with location := .readCell u.m.serialRx.rd }, [])
  | .readCell index =>
      ({ u with location := .readNext (u.m.serialRx.cells.get index) }, [])
  | .readNext c =>
      ({ u with location := .readStore c u.m.serialRx.rd }, [])
  | .readStore c tail =>
      ({ u with
          m := { u.m with serialRx := { u.m.serialRx with rd := next tail } }
          location := .client },
        [.readGave c.toNat])
  | _ =>
      (u, [])

/-- `availableForWrite()` from the two indices it read. -/
def roomFrom (head tail : Fin 64) : Nat :=
  if head ≥ tail then 64 - 1 - head.val + tail.val
  else tail.val - head.val - 1

/-- `availableForWrite()`. -/
def availableForWriteStep (u : Usart) : At → Usart × List Event
  | .roomHead =>
      ({ u with location := .roomTail u.m.tx.wr }, [])
  | .roomTail head =>
      ({ u with location := .client },
        [.availableForWriteGave (roomFrom head u.m.tx.rd)])
  | _ =>
      (u, [])

/-- What UDR0 holds after these events of the firmware. -/
def lastUdr (udr : Byte) : List KeyboardEmulator.Event → Byte
  | [.udr c] => c
  | _ => udr

/-- Take over what a step of the firmware did. -/
def absorb (u : Usart) (result : Machine × List KeyboardEmulator.Event) : Usart :=
  { u with m := result.1, udr := lastUdr u.udr result.2 }

/-- `flush()`. -/
def flushStep (u : Usart) (ending : Bool) : FlushAt → Usart × List Event
  | .testWritten =>
      if u.written then
        ({ u with location := .flush ending .testUdrie }, [])
      else
        ({ u with location := .flush ending .ret }, [])
  | .testUdrie =>
      if u.m.io.bit .ucsr0b udrie0 then
        ({ u with location := .flush ending .testSreg }, [])
      else
        ({ u with location := .flush ending .testTxc }, [])
  | .testTxc =>
      if u.m.io.bit .ucsr0a txc0 then
        ({ u with location := .flush ending .ret }, [])
      else
        ({ u with location := .flush ending .testSreg }, [])
  | .testSreg =>
      if u.m.sregI then
        ({ u with location := .flush ending .testUdrie }, [])
      else
        ({ u with location := .flush ending .testUdrieOff }, [])
  | .testUdrieOff =>
      if u.m.io.bit .ucsr0b udrie0 then
        ({ u with location := .flush ending .testUdre }, [])
      else
        ({ u with location := .flush ending .testUdrie }, [])
  | .testUdre =>
      if u.m.io.bit .ucsr0a udre0 then
        ({ u.absorb u.m.txUdrEmptyIrq with
            location := .flush ending .testUdrie }, [])
      else
        ({ u with location := .flush ending .testUdrie }, [])
  | .ret =>
      ({ u with
          location := if ending then .code false endCode none else .client },
        [.flushed])

/-- The frame of a single `write`: no buffer is written. -/
def writeFrame (c : Byte) : WriteAt → Pos :=
  .write .key [] 0 c

/-- Where `write` is after a step. -/
def writeAt : Pc → WriteAt
  | .here (.write _ _ _ _ position) => position
  | _ => .ret

/-- `write(c)` after `_written = true`. -/
def writeStep (u : Usart) (c : Byte) (position : WriteAt) : Usart × List Event :=
  if position = .ret then
    ({ u with location := .client }, [.wrote])
  else
    let result := u.m.writeStep (writeFrame c) c position
    ({ u.absorb result with
        location := .write c (writeAt result.1.pc) }, [])

/-- One step of the method that runs. -/
def runStep (u : Usart) : Usart × List Event :=
  match u.location with
  | .client =>
      (u, [])
  | .code opening todo loaded =>
      (u.codeStep opening todo loaded, [])
  | .endTail | .endHead _ =>
      u.endStep u.location
  | .availableHead | .availableTail _ =>
      u.availableStep u.location
  | .peekHead | .peekTail _ | .peekIndex | .peekCell _ =>
      u.peekStep u.location
  | .readHead | .readTail _ | .readIndex | .readCell _ | .readNext _
  | .readStore _ _ =>
      u.readStep u.location
  | .roomHead | .roomTail _ =>
      u.availableForWriteStep u.location
  | .flush ending position =>
      u.flushStep ending position
  | .write c position =>
      u.writeStep c position

/-- A method runs. -/
def inMethod (u : Usart) : Bool :=
  u.location != .client

/-! ## The system -/

/-- The byte just written to UDR0 may be on its way before TXC is cleared. -/
def inWindow (u : Usart) : Bool :=
  match u.location with
  | .write _ (.fastUcsra _) => true
  | _ => false

/-- The transmitter is on. -/
def txen (u : Usart) : Bool :=
  u.m.io.bit .ucsr0b txen0

/-- What the receive handler did with a character. -/
def receiveEvent (before after : Machine) (c : Byte) : Event :=
  if after.serialRx.wr = before.serialRx.wr then .refused c else .received c

/--
One step of the system; `none` when the action is not enabled.  A frame takes
longer than the atomic section that starts it and then clears TXC, and none
starts while the transmitter is off.
-/
def step? (u : Usart) : Action → Option (Usart × List Event)
  | .call method =>
      if u.inMethod then none else some (u.enter method)
  | .setFlag flag =>
      if u.inMethod then
        none
      else
        some ({ u with m := { u.m with sregI := flag }, flag := flag }, [])
  | .run =>
      if u.inMethod then some u.runStep else none
  | .dataRegisterEmpty =>
      match u.m.step? .dataRegisterEmpty with
      | none => none
      | some result => some (u.absorb result, [])
  | .usartReceive c parityError =>
      match u.m.step? (.usartReceive c parityError) with
      | none => none
      | some result =>
          some (u.absorb result, [receiveEvent u.m result.1 c])
  | .load =>
      if u.shifting.isSome || !u.txen then
        none
      else
        match u.m.step? .shiftOut with
        | none => none
        | some result =>
            some ({ u.absorb result with shifting := some u.udr }, [])
  | .finish =>
      match u.shifting with
      | none => none
      | some b =>
          if u.m.io.bit .ucsr0a udre0 then
            if u.inWindow then
              none
            else
              -- nothing follows: transmission complete
              some
                ({ u with
                    m := { u.m with io := u.m.io.force .ucsr0a txc0 true }
                    shifting := none },
                  [.finished b])
          else
            some ({ u with shifting := none }, [.finished b])

/-- The steps of the system, one constructor for each kind of action. -/
inductive Step (u : Usart) : Action → Usart × List Event → Prop where
  | call
      (outside : u.inMethod = false)
      (method : Method) :
      Step u (.call method) (u.enter method)
  | setFlag
      (outside : u.inMethod = false)
      (flag : Bool) :
      Step u (.setFlag flag)
        ({ u with m := { u.m with sregI := flag }, flag := flag }, [])
  | run
      (inside : u.inMethod = true) :
      Step u .run u.runStep
  | dataRegisterEmpty
      (enabled : u.m.sregI = true)
      (udrie : u.m.io.bit .ucsr0b udrie0 = true)
      (udre : u.m.io.bit .ucsr0a udre0 = true) :
      Step u .dataRegisterEmpty
        (u.absorb (u.m.interrupt Machine.txUdrEmptyIrq), [])
  | usartReceive
      (enabled : u.m.sregI = true)
      (rxcie : u.m.io.bit .ucsr0b rxcie0 = true)
      (c : Byte)
      (parityError : Bool)
      (result : Machine × List KeyboardEmulator.Event)
      (handled :
        result =
          u.m.interrupt
            (fun entered => (entered.rxCompleteIrq c parityError, []))) :
      Step u (.usartReceive c parityError)
        (u.absorb result, [receiveEvent u.m result.1 c])
  | load
      (txen : u.txen = true)
      (free : u.shifting = none)
      (udre : u.m.io.bit .ucsr0a udre0 = false) :
      Step u .load
        ({ u.absorb ({ u.m with io := u.m.io.force .ucsr0a udre0 true }, [])
            with shifting := some u.udr }, [])
  | finishLast
      (b : Byte)
      (busy : u.shifting = some b)
      (udre : u.m.io.bit .ucsr0a udre0 = true)
      (outside : u.inWindow = false) :
      Step u .finish
        ({ u with
            m := { u.m with io := u.m.io.force .ucsr0a txc0 true }
            shifting := none },
          [.finished b])
  | finishNext
      (b : Byte)
      (busy : u.shifting = some b)
      (udre : u.m.io.bit .ucsr0a udre0 = false) :
      Step u .finish ({ u with shifting := none }, [.finished b])

/-- Everything an enabled action can do, with the guard that let it happen. -/
theorem step?_inversion
    {u : Usart}
    {action : Action}
    {result : Usart × List Event}
    (stepped : u.step? action = some result) :
    Step u action result := by
  cases action with
  | call method =>
      simp only [step?] at stepped
      split at stepped
      next =>
        contradiction
      next outside =>
        cases stepped
        exact .call (by simpa using outside) method
  | setFlag flag =>
      simp only [step?] at stepped
      split at stepped
      next =>
        contradiction
      next outside =>
        cases stepped
        exact .setFlag (by simpa using outside) flag
  | run =>
      simp only [step?] at stepped
      split at stepped
      next inside =>
        cases stepped
        exact .run inside
      next =>
        contradiction
  | dataRegisterEmpty =>
      simp only [step?] at stepped
      split at stepped
      next =>
        contradiction
      next handled =>
        cases stepped
        cases Machine.step?_inversion handled with
        | dataRegisterEmpty enabled udrie udre =>
            exact .dataRegisterEmpty enabled udrie udre
  | usartReceive c parityError =>
      simp only [step?] at stepped
      split at stepped
      next =>
        contradiction
      next handled =>
        cases stepped
        cases Machine.step?_inversion handled with
        | usartReceive enabled rxcie =>
            exact .usartReceive enabled rxcie c parityError _ rfl
  | load =>
      simp only [step?] at stepped
      split at stepped
      next =>
        contradiction
      next ready =>
        rw [Bool.or_eq_true, not_or] at ready
        split at stepped
        next =>
          contradiction
        next handled =>
          cases stepped
          cases Machine.step?_inversion handled with
          | shiftOut udre =>
              exact .load (by simpa using ready.2) (by simpa using ready.1)
                udre
  | finish =>
      simp only [step?] at stepped
      split at stepped
      next =>
        contradiction
      next b busy =>
        split at stepped
        next udre =>
          split at stepped
          next =>
            contradiction
          next outside =>
            cases stepped
            exact .finishLast b busy udre (by simpa using outside)
        next udre =>
          cases stepped
          exact .finishNext b busy (by simpa using udre)

/-- Runs of the system. -/
abbrev run? : Usart → List Action → Option (Usart × List Event) :=
  LabelledRun.run? step?

theorem client_of_outside
    {u : Usart}
    (outside : u.inMethod = false) :
    u.location = .client := by
  simpa [inMethod] using outside

/-! ## What a client keeps to -/

/-- What the client's calls so far mean for its next one. -/
structure Phase where
  /-- `begin` was called, and `end` not since -/
  isOpen : Bool
  /-- `flush` or `end` was called, and `write` not since -/
  flushed : Bool
  deriving Repr, DecidableEq

namespace Phase

def beforeBegin : Phase where
  isOpen := false
  flushed := true

/-- `write` needs an open port, `begin` one that has sent everything. -/
def call (phase : Phase) : Method → Option Phase
  | .begin _ _ =>
      if phase.flushed then some { phase with isOpen := true } else none
  | .end =>
      some { isOpen := false, flushed := true }
  | .flush =>
      some { phase with flushed := true }
  | .write _ =>
      if phase.isOpen then some { phase with flushed := false } else none
  | .available | .peek | .read | .availableForWrite =>
      some phase

def next (phase : Phase) : Action → Option Phase
  | .call method => phase.call method
  | _ => some phase

end Phase

/--
The client writes only between `begin` and `end`, and does not call `begin`
with something written since the last `flush`.
-/
def Orderly (actions : List Action) : Prop :=
  (actions.foldlM Phase.next Phase.beforeBegin).isSome = true

instance : DecidablePred Orderly :=
  fun _ => inferInstanceAs (Decidable (_ = true))

/--
Before the first `begin`: the object is zero-initialised, and the transmitter
has nothing to send and its interrupts off, as after reset.
-/
structure Fresh (u : Usart) : Prop where
  client : u.location = .client
  unwritten : u.written = false
  txEmpty : u.m.tx.Empty
  rxEmpty : u.m.serialRx.Empty
  idle : u.shifting = none
  udre : u.m.io.bit .ucsr0a udre0 = true
  udrie : u.m.io.bit .ucsr0b udrie0 = false
  flag : u.m.sregI = u.flag

/-- `Serial` on a microcontroller after power-on, interrupts enabled. -/
def powerOn : Usart where
  m := { Machine.powerOn with sregI := true }
  written := false
  udr := 0
  shifting := none
  flag := true
  location := .client

theorem powerOn_fresh : powerOn.Fresh :=
  ⟨rfl, rfl, rfl, rfl, rfl, by decide +kernel, by decide +kernel, rfl⟩

/-! ## Events -/

namespace Event

def writing? : Event → Option Byte
  | .writing c => some c
  | _ => none

def finished? : Event → Option Byte
  | .finished b => some b
  | _ => none

def received? : Event → Option Byte
  | .received c => some c
  | _ => none

end Event

end Usart

end KeyboardEmulator
