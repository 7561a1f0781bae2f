import KeyboardEmulator.HandlerFrame

namespace KeyboardEmulator

open BootKeyboard (Byte)

/-!
# Straight-line code seen through one register bit

The effect of straight-line code on one bit of one register is a function of
that bit alone.  Code confined to some bits of the port and direction registers
leaves every other bit as it was, also when handlers run in between.
-/

/-- One bit of a register after an access, from the bit before it. -/
def Access.bitAfter (reg : Reg) (b : Nat) (x : Bool) : Access → Bool
  | .assign target value =>
      if target = reg then value.getLsbD b else x
  | .modify target keep set =>
      if target = reg then
        (x && keep.getLsbD b) || set.getLsbD b
      else
        x
  | _ =>
      x

/-- One bit of a register after straight-line code. -/
def codeBit (reg : Reg) (b : Nat) (todo : List Access) (x : Bool) : Bool :=
  todo.foldl (Access.bitAfter reg b) x

@[simp] theorem codeBit_nil (reg : Reg) (b : Nat) (x : Bool) :
    codeBit reg b [] x = x :=
  rfl

@[simp] theorem codeBit_cons
    (reg : Reg)
    (b : Nat)
    (access : Access)
    (rest : List Access)
    (x : Bool) :
    codeBit reg b (access :: rest) x =
      codeBit reg b rest (access.bitAfter reg b x) :=
  rfl

theorem codeBit_append
    (reg : Reg)
    (b : Nat)
    (first second : List Access)
    (x : Bool) :
    codeBit reg b (first ++ second) x =
      codeBit reg b second (codeBit reg b first x) :=
  List.foldl_append

/-- A set bit stays at least as set, whatever code follows. -/
theorem codeBit_mono
    (reg : Reg)
    (b : Nat)
    (todo : List Access)
    {x y : Bool}
    (below : x = true → y = true)
    (set : codeBit reg b todo x = true) :
    codeBit reg b todo y = true := by
  induction todo generalizing x y with
  | nil =>
      exact below set
  | cons access rest inductionHypothesis =>
      refine inductionHypothesis ?_ set
      cases access with
      | assign target value =>
          simp only [Access.bitAfter]
          split
          · exact id
          · exact below
      | modify target keep value =>
          simp only [Access.bitAfter]
          split
          · intro before
            cases x <;> simp_all
          · exact below
      | _ =>
          exact below

/-- Moving a bit toward its final value does not change that value. -/
theorem codeBit_toward
    {reg : Reg}
    {b : Nat}
    {todo : List Access}
    {x level : Bool}
    (final : codeBit reg b todo x = level) :
    codeBit reg b todo level = level := by
  cases level with
  | true =>
      exact codeBit_mono reg b todo (fun _ => rfl) final
  | false =>
      by_contra set
      rw [Bool.not_eq_false] at set
      have raised : codeBit reg b todo x = true :=
        codeBit_mono reg b todo (by simp) set
      rw [final] at raised
      contradiction

/-! ## Confined code -/

/-- The port and direction registers. -/
def Reg.isGpio : Reg → Bool
  | .portB | .portC | .portD | .ddrB | .ddrC | .ddrD => true
  | _ => false

theorem Reg.plain_of_isGpio
    {reg : Reg}
    (gpio : reg.isGpio = true) :
    reg ≠ .ucsr0a ∧ reg ≠ .pcmsk2 ∧ reg ≠ .ucsr0b := by
  cases reg <;> simp_all [Reg.isGpio]

/--
The access touches only SREG, or only the given bits of a port or direction
register.
-/
def Access.confined (allowed : Reg → BitVec 8) : Access → Bool
  | .saveSreg | .cli | .restoreSreg =>
      true
  | .modify reg keep set =>
      reg.isGpio && (keep ||| allowed reg == BitVec.allOnes 8) &&
        (set &&& ~~~allowed reg == 0#8)
  | _ =>
      false

/-- The access is to SREG or a register, not to a variable of the receiver. -/
def Access.registersOnly : Access → Bool
  | .saveSreg | .cli | .restoreSreg | .assign _ _ | .modify _ _ _ => true
  | _ => false

theorem Machine.perform_sameReceiver
    (m : Machine)
    (loaded : Byte)
    {access : Access}
    (registers : access.registersOnly = true) :
    Machine.SameReceiver m (m.perform loaded access) := by
  cases access with
  | saveSreg | cli | restoreSreg | assign reg value | modify reg keep set =>
      exact .of_eq rfl rfl
  | clearOverflow | resetTail | resetHead | setActive object
  | setPcintMask reg value =>
      contradiction

/-- A confined read-modify-write keeps a bit outside the allowed ones. -/
theorem confined_modify_bit
    {allowed : Reg → BitVec 8}
    {target : Reg}
    {keep set : BitVec 8}
    (confined :
      (Access.modify target keep set).confined allowed = true)
    {b : Nat}
    (inside : b < 8)
    (other : (allowed target).getLsbD b = false) :
    keep.getLsbD b = true ∧ set.getLsbD b = false := by
  simp only [Access.confined, Bool.and_eq_true, beq_iff_eq] at confined
  obtain ⟨⟨_, keeps⟩, sets⟩ := confined
  have keepBit := congrArg (fun v => v.getLsbD b) keeps
  have setBit := congrArg (fun v => v.getLsbD b) sets
  simp only [BitVec.getLsbD_or, BitVec.getLsbD_and,
    BitVec.getLsbD_not, other, inside, BitVec.getLsbD_allOnes,
    BitVec.getLsbD_zero, decide_true, Bool.or_false, Bool.not_false,
    Bool.and_true] at keepBit setBit
  exact ⟨keepBit, setBit⟩

/-- Confined code does not change a bit outside the allowed ones. -/
theorem bitAfter_confined
    {allowed : Reg → BitVec 8}
    {access : Access}
    (confined : access.confined allowed = true)
    {reg : Reg}
    {b : Nat}
    (inside : b < 8)
    (other : (allowed reg).getLsbD b = false)
    (x : Bool) :
    access.bitAfter reg b x = x := by
  cases access with
  | modify target keep set =>
      simp only [Access.bitAfter]
      split
      next same =>
        subst same
        obtain ⟨keeps, sets⟩ :=
          confined_modify_bit confined inside other
        simp [keeps, sets]
      next =>
        rfl
  | assign target value =>
      contradiction
  | _ =>
      rfl

theorem codeBit_confined
    {allowed : Reg → BitVec 8}
    {todo : List Access}
    (confined : ∀ access ∈ todo, access.confined allowed = true)
    {reg : Reg}
    {b : Nat}
    (inside : b < 8)
    (other : (allowed reg).getLsbD b = false)
    (x : Bool) :
    codeBit reg b todo x = x := by
  induction todo with
  | nil =>
      rfl
  | cons access rest inductionHypothesis =>
      rw [codeBit_cons,
        bitAfter_confined (confined access (by simp)) inside other]
      exact inductionHypothesis
        (fun later member => confined later (by simp [member]))

/-- Allowing more bits keeps code confined. -/
theorem confined_mono
    {narrow wide : Reg → BitVec 8}
    (included : ∀ reg, narrow reg &&& ~~~wide reg = 0#8)
    {access : Access}
    (confined : access.confined narrow = true) :
    access.confined wide = true := by
  cases access with
  | modify reg keep set =>
      have keeps := fun b inside =>
        @confined_modify_bit narrow reg keep set confined b inside
      have subset : ∀ b, b < 8 → (wide reg).getLsbD b = false →
          (narrow reg).getLsbD b = false := by
        intro b inside notWide
        have bit := congrArg (fun v => v.getLsbD b) (included reg)
        simpa only [BitVec.getLsbD_and, BitVec.getLsbD_not, inside,
          notWide, decide_true, Bool.not_false, Bool.and_true,
          BitVec.getLsbD_zero] using bit
      simp only [Access.confined, Bool.and_eq_true,
        beq_iff_eq] at confined ⊢
      refine ⟨⟨confined.1.1, ?_⟩, ?_⟩
      · apply BitVec.eq_of_getLsbD_eq
        intro b inside
        rw [BitVec.getLsbD_or, BitVec.getLsbD_allOnes, decide_eq_true inside]
        cases notWide : (wide reg).getLsbD b with
        | true =>
            exact Bool.or_true _
        | false =>
            rw [(keeps b inside (subset b inside notWide)).1,
              Bool.true_or]
      · apply BitVec.eq_of_getLsbD_eq
        intro b inside
        rw [BitVec.getLsbD_and, BitVec.getLsbD_not, decide_eq_true inside,
          BitVec.getLsbD_zero]
        cases notWide : (wide reg).getLsbD b with
        | true =>
            exact Bool.and_false _
        | false =>
            rw [(keeps b inside (subset b inside notWide)).2,
              Bool.false_and]
  | _ =>
      simp_all [Access.confined]

/-! ## The LED pins -/

/-- The output bit of a pin. -/
def outputBit (pin : Pin) (reg : Reg) : BitVec 8 :=
  if portOutputRegister (digitalPinToPort pin) = some reg then
    digitalPinToBitMask pin
  else
    0

/-- The direction bit of a pin. -/
def modeBit (pin : Pin) (reg : Reg) : BitVec 8 :=
  if portModeRegister (digitalPinToPort pin) = some reg then
    digitalPinToBitMask pin
  else
    0

/-- The output and direction bits of both LED pins. -/
def ledBits (reg : Reg) : BitVec 8 :=
  match reg with
  | .portB | .ddrB => bv 5
  | .portD | .ddrD => bv 2
  | _ => 0

theorem confined_digitalWrite
    {pin : Pin}
    (led : isLedPin pin)
    (val : BitVec 8) :
    ∀ access ∈ digitalWrite pin val,
      access.confined (outputBit pin) = true := by
  rcases led with rfl | rfl
  · by_cases isLow : val = low
    · subst isLow
      decide
    · simp only [digitalWrite, if_neg isLow]
      decide
  · by_cases isLow : val = low
    · subst isLow
      decide
    · simp only [digitalWrite, if_neg isLow]
      decide

theorem confined_blinkLed
    {pin : Pin}
    (led : isLedPin pin)
    (cycles : BitVec 32) :
    ∀ access ∈ blinkLed cycles pin,
      access.confined (outputBit pin) = true := by
  intro access member
  simp only [blinkLed, digitalWriteLoop, List.mem_append,
    List.mem_flatMap] at member
  rcases member with ⟨_, _, written⟩ | ⟨_, _, written⟩
  · exact confined_digitalWrite led high access written
  · exact confined_digitalWrite led low access written

theorem confined_pinMode
    {pin : Pin}
    (led : isLedPin pin) :
    ∀ access ∈ pinMode pin output,
      access.confined (modeBit pin) = true := by
  rcases led with rfl | rfl <;> decide

theorem outputBit_included
    {pin : Pin}
    (led : isLedPin pin)
    (reg : Reg) :
    outputBit pin reg &&& ~~~ledBits reg = 0#8 := by
  rcases led with rfl | rfl <;> cases reg <;> decide

theorem modeBit_included
    {pin : Pin}
    (led : isLedPin pin)
    (reg : Reg) :
    modeBit pin reg &&& ~~~ledBits reg = 0#8 := by
  rcases led with rfl | rfl <;> cases reg <;> decide

theorem confined_blinkLed_led
    {pin : Pin}
    (led : isLedPin pin)
    (cycles : BitVec 32) :
    ∀ access ∈ blinkLed cycles pin,
      access.confined ledBits = true :=
  fun access member =>
    confined_mono (outputBit_included led)
      (confined_blinkLed led cycles access member)

theorem confined_ledSetup :
    ∀ access ∈ Machine.ledSetup, access.confined ledBits = true := by
  intro access member
  have led13 : isLedPin 13 := .inl rfl
  have led2 : isLedPin 2 := .inr rfl
  simp only [Machine.ledSetup, List.mem_append] at member
  rcases member with
    ((((mode13 | mode2) | low13) | low2) | blink13) | blink2
  · exact confined_mono (modeBit_included led13)
      (confined_pinMode led13 access mode13)
  · exact confined_mono (modeBit_included led2)
      (confined_pinMode led2 access mode2)
  · exact confined_mono (outputBit_included led13)
      (confined_digitalWrite led13 low access low13)
  · exact confined_mono (outputBit_included led2)
      (confined_digitalWrite led2 low access low2)
  · exact confined_blinkLed_led led13 100000 access blink13
  · exact confined_blinkLed_led led2 100000 access blink2

/-- Writing LOW at least once leaves the LED's bit clear. -/
theorem codeBit_digitalWriteLoop_low
    {pin : Pin}
    {reg : Reg}
    {b : Nat}
    (clears : ∀ x, codeBit reg b (digitalWrite pin low) x = false)
    (count : Nat)
    (x : Bool) :
    codeBit reg b (digitalWriteLoop (count + 1) pin low) x = false := by
  rw [digitalWriteLoop, List.range_succ, List.flatMap_append,
    codeBit_append]
  simpa using clears _

/-- `blinkLED` with a positive half period ends with the LED's bit clear. -/
theorem codeBit_blinkLed_low
    {pin : Pin}
    {reg : Reg}
    {b : Nat}
    (clears : ∀ x, codeBit reg b (digitalWrite pin low) x = false)
    {cycles : BitVec 32}
    (positive : 0 < (cycles >>> 1).toNat)
    (x : Bool) :
    codeBit reg b (blinkLed cycles pin) x = false := by
  rw [blinkLed, codeBit_append]
  obtain ⟨count, shape⟩ := Nat.exists_eq_succ_of_ne_zero
    (Nat.pos_iff_ne_zero.mp positive)
  rw [shape]
  exact codeBit_digitalWriteLoop_low clears count _

end KeyboardEmulator
