import KeyboardEmulator.WiringDigital

namespace KeyboardEmulator

/-!
# Setting up the two serial ports

The object fields and the register code of `SoftwareSerial` and of
`HardwareSerial::begin`, as executed before the main loop starts.
-/

/-- Clock of the Uno board. -/
def fCpu : Nat :=
  16000000

/-- `_SS_MAX_RX_BUFF`. -/
def ssMaxRxBuff : Nat :=
  64

/-! ## `SoftwareSerial` -/

/-- Per-object data of `SoftwareSerial` that the receive side reads. -/
structure SoftwareSerial where
  receivePin : Pin
  pcintMaskreg : Reg
  pcintMaskvalue : BitVec 8
  rxDelayCentering : Nat
  rxDelayIntrabit : Nat
  rxDelayStopbit : Nat
  txDelay : Nat
  bufferOverflow : Bool
  inverseLogic : Bool

namespace SoftwareSerial

/-- `subtract_cap(num, sub)`. -/
def subtractCap (num sub : Nat) : Nat :=
  if num > sub then num - sub else 1

/-- `setTX(tx)`: first write, then set output. -/
def setTx (inverseLogic : Bool) (tx : Pin) : List Access :=
  digitalWrite tx (if inverseLogic then low else high) ++
    pinMode tx output

/-- `setRX(rx)`: the pull-up is on for normal logic. -/
def setRx (inverseLogic : Bool) (rx : Pin) : List Access :=
  pinMode rx input ++
    (if inverseLogic then [] else digitalWrite rx high)

/--
The field initialisers of the constructor and the fields `setRX` assigns; the
mask register pointer and value stay uninitialised until `begin`.
-/
def construct
    (object : SoftwareSerial)
    (receivePin : Pin)
    (inverseLogic : Bool) : SoftwareSerial :=
  { object with
    receivePin := receivePin
    rxDelayCentering := 0
    rxDelayIntrabit := 0
    rxDelayStopbit := 0
    txDelay := 0
    bufferOverflow := false
    inverseLogic := inverseLogic }

/-- `setRxIntMsk(enable)` on given mask register and value. -/
def setRxIntMsk (reg : Reg) (value : BitVec 8) (enable : Bool) : Access :=
  if enable then orMask reg value else andNotMask reg value

/-- `stopListening()` of the active object. -/
def stopListening (reg : Reg) (value : BitVec 8) : List Access :=
  [setRxIntMsk reg value false, .setActive none]

/--
`listen()` of main's object, given what `active_object` holds.  The stop-bit
delay and the mask are the values `begin` computed just before.
-/
def listen
    (rxDelayStopbit : Nat)
    (reg : Reg)
    (value : BitVec 8)
    (activeObject : Option SerialObject) : List Access :=
  if rxDelayStopbit = 0 then
    []
  else if activeObject ≠ some .uart then
    (if activeObject.isSome then stopListening reg value else []) ++
      [.clearOverflow, .resetTail, .resetHead, .setActive (some .uart),
        setRxIntMsk reg value true]
  else
    []

/-- `bit_delay = (F_CPU / speed) / 4`, a `uint16_t`. -/
def bitDelay (speed : Nat) : Nat :=
  fCpu / speed / 4 % 65536

/-- The delays `begin` stores; their tuning depends on the compiler version. -/
def beginDelays
    (object : SoftwareSerial)
    (gccVersion speed : Nat) : SoftwareSerial :=
  let delay := bitDelay speed
  if gccVersion > 40800 then
    { object with
      txDelay := subtractCap delay (15 / 4)
      rxDelayCentering :=
        subtractCap (delay / 2) ((4 + 4 + 75 + 17 - 23) / 4)
      rxDelayIntrabit := subtractCap delay (23 / 4)
      rxDelayStopbit :=
        subtractCap (delay * 3 / 4) ((37 + 11) / 4) }
  else
    { object with
      txDelay := subtractCap delay (15 / 4)
      rxDelayCentering :=
        subtractCap (delay / 2) ((4 + 4 + 97 + 29 - 11) / 4)
      rxDelayIntrabit := subtractCap delay (11 / 4)
      rxDelayStopbit :=
        subtractCap (delay * 3 / 4) ((44 + 17) / 4) }

/--
The register code of `begin(speed)` after the delays are computed.  Every
digital pin has a pin-change interrupt, so the receive side is always set up.
-/
def beginCode
    (object : SoftwareSerial)
    (activeObject : Option SerialObject) : List Access :=
  let reg := digitalPinToPcmsk object.receivePin
  let value := bv (digitalPinToPcmskBit object.receivePin)
  [sbi .pcicr (digitalPinToPcicrBit object.receivePin),
    .setPcintMask reg value] ++
    listen object.rxDelayStopbit reg value activeObject

/-- The sampling loop of `recv`: eight samples, least significant bit first. -/
def sampleByte (samples : Vector Bool 8) : BitVec 8 :=
  samples.toList.foldl
    (fun d level =>
      if level then (d >>> 1) ||| 0x80 else d >>> 1)
    0

/-- The line levels that carry a byte. -/
def samplesOf (b : BitVec 8) : Vector Bool 8 :=
  Vector.ofFn (fun k => b.getLsbD k)

/-- Every byte can arrive: its own line levels deliver it. -/
theorem sampleByte_samplesOf (b : BitVec 8) :
    sampleByte (samplesOf b) = b := by
  have everyByte :
      (List.range 256).all
          (fun code =>
            sampleByte (samplesOf (BitVec.ofNat 8 code)) ==
              BitVec.ofNat 8 code) =
        true := by
    decide +kernel
  have delivered := List.all_eq_true.mp everyByte
    b.toNat (List.mem_range.mpr b.isLt)
  simpa using delivered

/-- `available()` from the two indices it read. -/
def availableFrom (tail head : Fin 64) : Nat :=
  (tail.val + ssMaxRxBuff - head.val) % ssMaxRxBuff

end SoftwareSerial

/-! ## `HardwareSerial` -/

namespace HardwareSerial

/-- `SERIAL_8N1`. -/
def serial8N1 : BitVec 8 :=
  0x06

/-- `(clock / baud - 1) / 2` of `unsigned long`s, kept in a `uint16_t`. -/
def divisor (clock baud : Nat) : Nat :=
  (clock / baud + 4294967295) % 4294967296 / 2 % 65536

/-- The baud-rate divisor for double-speed operation. -/
def doubleSpeedSetting (baud : Nat) : Nat :=
  divisor (fCpu / 4) baud

/-- Whether `begin` falls back to normal speed. -/
def normalSpeed (baud : Nat) : Bool :=
  (fCpu == 16000000 && baud == 57600) || doubleSpeedSetting baud > 4095

/-- The value written to the baud-rate registers. -/
def baudSetting (baud : Nat) : Nat :=
  if normalSpeed baud then
    divisor (fCpu / 8) baud
  else
    doubleSpeedSetting baud

/-- `begin(baud, config)`. -/
def beginCode (baud : Nat) (config : BitVec 8) : List Access :=
  [.assign .ucsr0a (bv u2x0)] ++
    (if normalSpeed baud then [.assign .ucsr0a 0] else []) ++
    [.assign .ubrr0h (BitVec.ofNat 8 (baudSetting baud >>> 8)),
      .assign .ubrr0l (BitVec.ofNat 8 (baudSetting baud)),
      .assign .ucsr0c config,
      sbi .ucsr0b rxen0,
      sbi .ucsr0b txen0,
      sbi .ucsr0b rxcie0,
      cbi .ucsr0b udrie0]

end HardwareSerial

/-! ## `init` -/

/-- `init()` after its `sei()`: timers, the converter, and the USART off. -/
def initCode : List Access :=
  [sbi .tccr0a 1, sbi .tccr0a 0,
    sbi .tccr0b 1, sbi .tccr0b 0,
    sbi .timsk0 0,
    .assign .tccr1b 0, sbi .tccr1b 1, sbi .tccr1b 0,
    sbi .tccr1a 0,
    sbi .tccr2b 2,
    sbi .tccr2a 0,
    sbi .adcsra 2, sbi .adcsra 1, sbi .adcsra 0, sbi .adcsra 7,
    .assign .ucsr0b 0]

end KeyboardEmulator
