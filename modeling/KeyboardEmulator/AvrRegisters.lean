import Mathlib.Data.BitVec

namespace KeyboardEmulator

/-!
# I/O registers of the ATmega328P

Every register is one byte.  A plain register holds what was last stored;
`UCSR0A` is different, because its status bits belong to the hardware and its
`TXC0` bit is cleared by writing a one.
-/

/-- The I/O registers the firmware touches. -/
inductive Reg where
  | portB | portC | portD
  | ddrB | ddrC | ddrD
  | pcicr | pcmsk0 | pcmsk1 | pcmsk2
  | ucsr0a | ucsr0b | ucsr0c | ubrr0h | ubrr0l
  | tccr0a | tccr0b | timsk0
  | tccr1a | tccr1b | tccr2a | tccr2b
  | adcsra
  deriving Repr, DecidableEq

/-- `_BV(bit)`. -/
def bv (bit : Nat) : BitVec 8 :=
  1#8 <<< bit

/-! Bit positions in `UCSR0A`. -/

def mpcm0 : Nat := 0
def u2x0 : Nat := 1
def upe0 : Nat := 2
def udre0 : Nat := 5
def txc0 : Nat := 6

/-! Bit positions in `UCSR0B`. -/

def txen0 : Nat := 3
def rxen0 : Nat := 4
def udrie0 : Nat := 5
def rxcie0 : Nat := 7

/-- The contents of all registers. -/
abbrev IoFile :=
  Reg → BitVec 8

/-- The bits of `UCSR0A` that only the hardware changes: RXC, UDRE, FE, DOR, UPE. -/
def ucsr0aStatus : BitVec 8 :=
  0xBC

/-- What a register holds after a store, given what it held before. -/
def storedValue (reg : Reg) (old value : BitVec 8) : BitVec 8 :=
  match reg with
  | .ucsr0a =>
      (old &&& ucsr0aStatus) |||
        (value &&& (bv u2x0 ||| bv mpcm0)) |||
        (old &&& ~~~value &&& bv txc0)
  | _ =>
      value

namespace IoFile

/-- Store a byte to a register. -/
def store (io : IoFile) (reg : Reg) (value : BitVec 8) : IoFile :=
  fun query =>
    if query = reg then storedValue reg (io reg) value else io query

/-- One bit of a register. -/
def bit (io : IoFile) (reg : Reg) (b : Nat) : Bool :=
  (io reg).getLsbD b

/-- The hardware sets or clears a bit by itself. -/
def force (io : IoFile) (reg : Reg) (b : Nat) (level : Bool) : IoFile :=
  fun query =>
    if query = reg then
      (if level then io reg ||| bv b else io reg &&& ~~~bv b)
    else
      io query

theorem store_other
    (io : IoFile)
    {reg query : Reg}
    (different : query ≠ reg)
    (value : BitVec 8) :
    io.store reg value query = io query := by
  simp [store, different]

theorem store_same
    (io : IoFile)
    {reg : Reg}
    (plain : reg ≠ .ucsr0a)
    (value : BitVec 8) :
    io.store reg value reg = value := by
  simp only [store, ↓reduceIte]
  cases reg <;> first | rfl | exact (plain rfl).elim

theorem bit_store_other
    (io : IoFile)
    {reg query : Reg}
    (different : query ≠ reg)
    (value : BitVec 8)
    (b : Nat) :
    (io.store reg value).bit query b = io.bit query b := by
  rw [bit, store_other io different, bit]

theorem bit_store_same
    (io : IoFile)
    {reg : Reg}
    (plain : reg ≠ .ucsr0a)
    (value : BitVec 8)
    (b : Nat) :
    (io.store reg value).bit reg b = value.getLsbD b := by
  rw [bit, store_same io plain]

/-- A store to `UCSR0A` cannot change whether the data register is empty. -/
theorem bit_store_udre
    (io : IoFile)
    (reg : Reg)
    (value : BitVec 8) :
    (io.store reg value).bit .ucsr0a udre0 =
      io.bit .ucsr0a udre0 := by
  by_cases same : Reg.ucsr0a = reg
  · subst same
    simp [bit, store, storedValue, udre0, ucsr0aStatus, bv, u2x0,
      mpcm0, txc0]
  · exact bit_store_other io same value udre0

theorem bit_force_other
    (io : IoFile)
    {reg query : Reg}
    (different : query ≠ reg)
    (forced b : Nat)
    (level : Bool) :
    (io.force reg forced level).bit query b = io.bit query b := by
  simp [bit, force, different]

end IoFile

/-- Bit `k` of `_BV(bit)`. -/
theorem getLsbD_bv
    (bit k : Nat) :
    (bv bit).getLsbD k = (decide (k < 8) && decide (k = bit)) := by
  rw [bv, BitVec.getLsbD_shiftLeft, BitVec.getLsbD_one]
  grind

namespace IoFile

/-- Forcing a bit sets it to the level. -/
theorem bit_force_same
    (io : IoFile)
    (reg : Reg)
    {b : Nat}
    (inside : b < 8)
    (level : Bool) :
    (io.force reg b level).bit reg b = level := by
  cases level <;>
    simp [bit, force, getLsbD_bv, inside]

/-- Forcing one bit leaves the other bits of the register alone. -/
theorem bit_force_bit
    (io : IoFile)
    (reg query : Reg)
    {forced b : Nat}
    (different : b ≠ forced)
    (level : Bool) :
    (io.force reg forced level).bit query b = io.bit query b := by
  by_cases same : query = reg
  · subst same
    cases level
    · by_cases inside : b < 8
      · simp only [bit, force, ↓reduceIte, Bool.false_eq_true,
          BitVec.getLsbD_and, BitVec.getLsbD_not, getLsbD_bv]
        simp [different, inside]
      · simp [bit, BitVec.getLsbD_of_ge _ _ (Nat.le_of_not_lt inside)]
    · simp [bit, force, getLsbD_bv, different]
  · exact bit_force_other io same forced b level

end IoFile

end KeyboardEmulator
