import KeyboardEmulator.AvrRegisters

namespace KeyboardEmulator

/-!
# Digital pins and the register code of the Arduino core

Straight-line code is given as the list of its accesses to the interrupt flag,
to registers and to the variables it shares with interrupt handlers, in source
order.  A read-modify-write is one entry executed in two steps, a load and a
store, so that a handler can run between them wherever interrupts are enabled.
-/

/-- The only `SoftwareSerial` object of the program. -/
inductive SerialObject where
  | uart
  deriving Repr, DecidableEq

/-- One access of straight-line code. -/
inductive Access where
  /-- `uint8_t oldSREG = SREG`. -/
  | saveSreg
  /-- `cli()`. -/
  | cli
  /-- `SREG = oldSREG`. -/
  | restoreSreg
  /-- `*reg = value`. -/
  | assign (reg : Reg) (value : BitVec 8)
  /-- `*reg = (*reg & keep) | set`, a load followed by a store. -/
  | modify (reg : Reg) (keep set : BitVec 8)
  /-- `_buffer_overflow = false`. -/
  | clearOverflow
  /-- `_receive_buffer_tail = 0`. -/
  | resetTail
  /-- `_receive_buffer_head = 0`. -/
  | resetHead
  /-- `active_object = object`. -/
  | setActive (object : Option SerialObject)
  /-- `_pcint_maskreg = reg; _pcint_maskvalue = value`. -/
  | setPcintMask (reg : Reg) (value : BitVec 8)
  deriving Repr, DecidableEq

/-- `*reg |= mask`. -/
def orMask (reg : Reg) (mask : BitVec 8) : Access :=
  .modify reg (~~~0) mask

/-- `*reg &= ~mask`. -/
def andNotMask (reg : Reg) (mask : BitVec 8) : Access :=
  .modify reg (~~~mask) 0

/-- `sbi(sfr, bit)`. -/
def sbi (sfr : Reg) (bit : Nat) : Access :=
  orMask sfr (bv bit)

/-- `cbi(sfr, bit)`. -/
def cbi (sfr : Reg) (bit : Nat) : Access :=
  andNotMask sfr (bv bit)

/-- The registers after code that no interrupt handler comes between. -/
def IoFile.execute (io : IoFile) : List Access → IoFile
  | [] => io
  | .assign reg value :: rest =>
      (io.store reg value).execute rest
  | .modify reg keep set :: rest =>
      (io.store reg ((io reg &&& keep) ||| set)).execute rest
  | _ :: rest =>
      io.execute rest

/-! ## Pin tables -/

/-- A digital pin number; the tables have `NUM_DIGITAL_PINS` entries. -/
abbrev Pin :=
  Fin 20

/-- Port codes of `digital_pin_to_port_PGM`. -/
inductive Port where
  | notAPin | pb | pc | pd
  deriving Repr, DecidableEq

/-- Timer codes of `digital_pin_to_timer_PGM`. -/
inductive Timer where
  | notOnTimer | timer0a | timer0b | timer1a | timer1b | timer2a | timer2b
  deriving Repr, DecidableEq

def digitalPinToPort (pin : Pin) : Port :=
  #v[.pd, .pd, .pd, .pd, .pd, .pd, .pd, .pd,
    .pb, .pb, .pb, .pb, .pb, .pb,
    .pc, .pc, .pc, .pc, .pc, .pc][pin]

def digitalPinToBitMask (pin : Pin) : BitVec 8 :=
  #v[bv 0, bv 1, bv 2, bv 3, bv 4, bv 5, bv 6, bv 7,
    bv 0, bv 1, bv 2, bv 3, bv 4, bv 5,
    bv 0, bv 1, bv 2, bv 3, bv 4, bv 5][pin]

def digitalPinToTimer (pin : Pin) : Timer :=
  #v[.notOnTimer, .notOnTimer, .notOnTimer, .timer2b,
    .notOnTimer, .timer0b, .timer0a, .notOnTimer,
    .notOnTimer, .timer1a, .timer1b, .timer2a,
    .notOnTimer, .notOnTimer,
    .notOnTimer, .notOnTimer, .notOnTimer,
    .notOnTimer, .notOnTimer, .notOnTimer][pin]

def portModeRegister : Port → Option Reg
  | .notAPin => none
  | .pb => some .ddrB
  | .pc => some .ddrC
  | .pd => some .ddrD

def portOutputRegister : Port → Option Reg
  | .notAPin => none
  | .pb => some .portB
  | .pc => some .portC
  | .pd => some .portD

/-- `digitalPinToPCICRbit(p)`. -/
def digitalPinToPcicrBit (pin : Pin) : Nat :=
  if pin.val ≤ 7 then 2 else if pin.val ≤ 13 then 0 else 1

/-- `digitalPinToPCMSK(p)`. -/
def digitalPinToPcmsk (pin : Pin) : Reg :=
  if pin.val ≤ 7 then .pcmsk2 else if pin.val ≤ 13 then .pcmsk0 else .pcmsk1

/-- `digitalPinToPCMSKbit(p)`. -/
def digitalPinToPcmskBit (pin : Pin) : Nat :=
  if pin.val ≤ 7 then pin.val
  else if pin.val ≤ 13 then pin.val - 8
  else pin.val - 14

/-! ## `pinMode`, `digitalWrite` and `blinkLED` -/

def low : BitVec 8 := 0x0
def high : BitVec 8 := 0x1

def input : BitVec 8 := 0x0
def output : BitVec 8 := 0x1
def inputPullup : BitVec 8 := 0x2

/-- `uint8_t oldSREG = SREG; cli(); body; SREG = oldSREG`. -/
def guarded (body : List Access) : List Access :=
  [.saveSreg, .cli] ++ body ++ [.restoreSreg]

/-- `pinMode(pin, mode)`. -/
def pinMode (pin : Pin) (mode : BitVec 8) : List Access :=
  let bit := digitalPinToBitMask pin
  let port := digitalPinToPort pin
  match portModeRegister port, portOutputRegister port with
  | some reg, some out =>
      if mode = input then
        guarded [andNotMask reg bit, andNotMask out bit]
      else if mode = inputPullup then
        guarded [andNotMask reg bit, orMask out bit]
      else
        guarded [orMask reg bit]
  | _, _ =>
      []

/-- `turnOffPWM(timer)`, for the compare outputs the ATmega328P has. -/
def turnOffPwm : Timer → List Access
  | .notOnTimer => []
  | .timer0a => [cbi .tccr0a 7]
  | .timer0b => [cbi .tccr0a 5]
  | .timer1a => [cbi .tccr1a 7]
  | .timer1b => [cbi .tccr1a 5]
  | .timer2a => [cbi .tccr2a 7]
  | .timer2b => [cbi .tccr2a 5]

/-- `digitalWrite(pin, val)`. -/
def digitalWrite (pin : Pin) (val : BitVec 8) : List Access :=
  let timer := digitalPinToTimer pin
  let bit := digitalPinToBitMask pin
  match portOutputRegister (digitalPinToPort pin) with
  | none =>
      []
  | some out =>
      (if timer ≠ .notOnTimer then turnOffPwm timer else []) ++
        guarded
          [if val = low then andNotMask out bit else orMask out bit]

/-- `for (n = 0; n < count; n++) digitalWrite(pinNo, val)`. -/
def digitalWriteLoop (count : Nat) (pinNo : Pin) (val : BitVec 8) :
    List Access :=
  (List.range count).flatMap (fun _ => digitalWrite pinNo val)

/-- `blinkLED(cycles, pinNo)`. -/
def blinkLed (cycles : BitVec 32) (pinNo : Pin) : List Access :=
  digitalWriteLoop (cycles >>> 1).toNat pinNo high ++
    digitalWriteLoop (cycles >>> 1).toNat pinNo low

end KeyboardEmulator
