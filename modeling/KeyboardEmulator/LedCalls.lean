import KeyboardEmulator.RegisterCode

namespace KeyboardEmulator

open BootKeyboard (Byte)

/-!
# Calls that work on one LED

`pinMode`, `digitalWrite` and `blinkLED` of an LED pin read and write whole
registers that the serial lines share.  While such a call runs, with handlers
between any two of its accesses, no bit but the addressed LED's changes.
-/

/-- The output and the direction bit of a pin. -/
def pinBits (pin : Pin) (reg : Reg) : BitVec 8 :=
  outputBit pin reg ||| modeBit pin reg

/-- The code of a call on an LED pin. -/
inductive LedCall (pin : Pin) : List Access → Prop where
  | pinMode (mode : BitVec 8) : LedCall pin (pinMode pin mode)
  | digitalWrite (val : BitVec 8) : LedCall pin (digitalWrite pin val)
  | blinkLed (cycles : BitVec 32) : LedCall pin (blinkLed cycles pin)

theorem confined_ledCall
    {pin : Pin}
    (led : isLedPin pin)
    {todo : List Access}
    (call : LedCall pin todo) :
    ∀ access ∈ todo, access.confined (pinBits pin) = true := by
  have outputs :
      ∀ reg, outputBit pin reg &&& ~~~pinBits pin reg = 0#8 := by
    intro reg
    rcases led with rfl | rfl <;> cases reg <;> decide
  cases call with
  | pinMode mode =>
      by_cases isInput : mode = input
      · subst isInput
        rcases led with rfl | rfl <;> decide
      · by_cases pullup : mode = inputPullup
        · subst pullup
          rcases led with rfl | rfl <;> decide
        · rcases led with rfl | rfl <;>
            simp only [pinMode, if_neg isInput, if_neg pullup] <;>
            decide
  | digitalWrite val =>
      exact fun access member =>
        confined_mono outputs (confined_digitalWrite led val access member)
  | blinkLed cycles =>
      exact fun access member =>
        confined_mono outputs (confined_blinkLed led cycles access member)

/-! ## Confined code under execution -/

/-- A value loaded from a port or direction register is still current. -/
def LoadedCurrent
    (io : IoFile)
    (todo : List Access)
    (loaded : Option Byte) : Prop :=
  ∀ value, loaded = some value →
    ∃ reg keep set rest,
      todo = .modify reg keep set :: rest ∧ io reg = value

/-- Steps that straight-line code takes; a load and its store are two. -/
def Access.steps : Access → Nat
  | .modify _ _ _ => 2
  | _ => 1

def codeLength (todo : List Access) (loaded : Option Byte) : Nat :=
  (todo.map Access.steps).sum - (if loaded.isSome then 1 else 0)

theorem codeLength_append (first second : List Access) :
    codeLength (first ++ second) none =
      codeLength first none + codeLength second none := by
  simp [codeLength]

/-- Steps of `blinkLED`: five for each `digitalWrite`. -/
def blinkSteps (cycles : BitVec 32) : Nat :=
  10 * (cycles >>> 1).toNat

/-- The LED pins have no PWM, so `digitalWrite` is one guarded assignment. -/
theorem codeLength_digitalWrite
    {pin : Pin}
    (led : isLedPin pin)
    (val : BitVec 8) :
    codeLength (digitalWrite pin val) none = 5 := by
  by_cases isLow : val = low
  · subst isLow
    rcases led with rfl | rfl <;> rfl
  · rcases led with rfl | rfl <;>
      simp only [digitalWrite, if_neg isLow] <;> rfl

theorem codeLength_digitalWriteLoop
    {pin : Pin}
    (led : isLedPin pin)
    (count : Nat)
    (val : BitVec 8) :
    codeLength (digitalWriteLoop count pin val) none = 5 * count := by
  induction count with
  | zero =>
      rfl
  | succ count inductionHypothesis =>
      rw [digitalWriteLoop] at inductionHypothesis
      rw [digitalWriteLoop, List.range_succ, List.flatMap_append,
        codeLength_append, inductionHypothesis, List.flatMap_singleton,
        codeLength_digitalWrite led]
      rfl

theorem codeLength_blinkLed
    {pin : Pin}
    (led : isLedPin pin)
    (cycles : BitVec 32) :
    codeLength (blinkLed cycles pin) none = blinkSteps cycles := by
  rw [blinkLed, codeLength_append, codeLength_digitalWriteLoop led,
    codeLength_digitalWriteLoop led, blinkSteps]
  omega

/-- Steps of the LED code before the loop, for any length of the two blinks. -/
theorem codeLength_ledCode (cycles : BitVec 32) :
    codeLength
        (pinMode 13 output ++ pinMode 2 output ++
          digitalWrite 13 low ++ digitalWrite 2 low ++
          blinkLed cycles 13 ++ blinkLed cycles 2) none =
      20 + 2 * blinkSteps cycles := by
  have led13 : isLedPin 13 := .inl rfl
  have led2 : isLedPin 2 := .inr rfl
  have mode13 : codeLength (pinMode 13 output) none = 5 := rfl
  have mode2 : codeLength (pinMode 2 output) none = 5 := rfl
  simp only [codeLength_append, mode13, mode2,
    codeLength_digitalWrite led13, codeLength_digitalWrite led2,
    codeLength_blinkLed led13, codeLength_blinkLed led2]
  omega

/-- Steps of the LED code before the loop. -/
def ledSetupSteps : Nat :=
  20 + 2 * blinkSteps 100000

theorem codeLength_ledSetup :
    codeLength Machine.ledSetup none = ledSetupSteps :=
  codeLength_ledCode 100000

/-- Confined code and the value it may hold. -/
structure ConfinedCode
    (allowed : Reg → BitVec 8)
    (io : IoFile)
    (todo : List Access)
    (loaded : Option Byte) : Prop where
  confined : ∀ access ∈ todo, access.confined allowed = true
  current : LoadedCurrent io todo loaded

/-- No port or direction bit outside the allowed ones differs. -/
def SameOutside
    (allowed : Reg → BitVec 8)
    (before after : IoFile) : Prop :=
  ∀ reg b, reg.isGpio = true → b < 8 →
    (allowed reg).getLsbD b = false →
      after.bit reg b = before.bit reg b

/-- Storing back a current value changes allowed bits only. -/
theorem sameOutside_modify
    {allowed : Reg → BitVec 8}
    {target : Reg}
    {keep set : BitVec 8}
    (confined :
      (Access.modify target keep set).confined allowed = true)
    (io : IoFile) :
    SameOutside allowed io
      (io.store target ((io target &&& keep) ||| set)) := by
  intro reg b gpio inside other
  by_cases same : reg = target
  · subst same
    obtain ⟨keeps, sets⟩ := confined_modify_bit confined inside other
    rw [IoFile.bit_store_same io (Reg.plain_of_isGpio gpio).1, BitVec.getLsbD_or,
      BitVec.getLsbD_and, keeps, sets, Bool.and_true, Bool.or_false,
      IoFile.bit]
  · exact IoFile.bit_store_other io same _ b

namespace Machine

/-- One access of confined code, whatever code comes after it. -/
theorem codeStep_confined
    {m : Machine}
    {allowed : Reg → BitVec 8}
    {access : Access}
    {todo : List Access}
    {loaded : Option Byte}
    (code : ConfinedCode allowed m.io (access :: todo) loaded)
    (rest : List Access)
    (continuation : Pos) :
    ∃ left held after,
      m.codeStep (access :: todo ++ rest) loaded continuation = after ∧
        after.pc = .code (left ++ rest) held continuation ∧
        ConfinedCode allowed after.io left held ∧
        codeLength left held + 1 = codeLength (access :: todo) loaded ∧
        SameOutside allowed m.io after.io ∧
        SameReceiver m after := by
  have here := code.confined access (by simp)
  have later : ∀ other ∈ todo, other.confined allowed = true :=
    fun other member => code.confined other (by simp [member])
  have done : ∀ io, ConfinedCode allowed io todo none :=
    fun io => ⟨later, by simp [LoadedCurrent]⟩
  cases loaded with
  | none =>
      cases access with
      | saveSreg | cli | restoreSreg =>
          exact ⟨todo, none, _, rfl, rfl, done _,
            by simp [codeLength, Access.steps, Nat.add_comm],
            fun _ _ _ _ _ => rfl, .of_eq rfl rfl⟩
      | modify reg keep set =>
          refine ⟨.modify reg keep set :: todo, some (m.io reg), _, rfl,
            rfl, ⟨code.confined, ?_⟩, ?_,
            fun _ _ _ _ _ => rfl, .of_eq rfl rfl⟩
          · intro value holds
            cases holds
            exact ⟨reg, keep, set, todo, rfl, rfl⟩
          · simp [codeLength, Access.steps]
            omega
      | _ =>
          contradiction
  | some value =>
      obtain ⟨reg, keep, set, others, shape, current⟩ :=
        code.current value rfl
      cases shape
      subst current
      refine ⟨todo, none, _, rfl, rfl, done _, ?_,
        sameOutside_modify here m.io, .of_eq rfl rfl⟩
      simp [codeLength, Access.steps]
      omega

/-- A handler does not disturb confined code. -/
theorem step?_confined
    {m : Machine}
    {action : Action}
    {result : Machine × List Event}
    (mask : m.MaskOk)
    (stepped : m.step? action = some result)
    (notMain : action ≠ .main)
    {allowed : Reg → BitVec 8}
    {todo : List Access}
    {loaded : Option Byte}
    (code : ConfinedCode allowed m.io todo loaded) :
    ConfinedCode allowed result.1.io todo loaded ∧
      SameOutside allowed m.io result.1.io := by
  have kept : ∀ reg, reg.isGpio = true → result.1.io reg = m.io reg :=
    fun reg gpio =>
      have plain := Reg.plain_of_isGpio gpio
      step?_reg mask stepped notMain plain.1 plain.2.1 plain.2.2
  refine ⟨⟨code.confined, ?_⟩, ?_⟩
  · intro value holds
    obtain ⟨reg, keep, set, rest, shape, current⟩ :=
      code.current value holds
    have confined := code.confined (.modify reg keep set)
      (by simp [shape])
    simp only [Access.confined, Bool.and_eq_true] at confined
    exact ⟨reg, keep, set, rest, shape,
      (kept reg confined.1.1).trans current⟩
  · intro reg b gpio _ _
    rw [IoFile.bit, kept reg gpio, IoFile.bit]

/--
While main is in confined code, with handlers in between, port and direction
bits outside the allowed ones keep their values.
-/
theorem run?_confined
    {m final : Machine}
    {allowed : Reg → BitVec 8}
    {todo rest : List Access}
    {loaded : Option Byte}
    {continuation : Pos}
    {actions : List Action}
    {events : List Event}
    (mask : m.MaskOk)
    (pc : m.pc = .code (todo ++ rest) loaded continuation)
    (code : ConfinedCode allowed m.io todo loaded)
    (ran : run? m actions = some (final, events))
    (within : actions.count .main ≤ codeLength todo loaded) :
    SameOutside allowed m.io final.io := by
  induction actions generalizing m todo loaded events with
  | nil =>
      cases ran
      exact fun _ _ _ _ _ => rfl
  | cons action later inductionHypothesis =>
      obtain ⟨middle, first, tail, stepped, continued, _⟩ :=
        LabelledRun.run?_cons_iff.mp ran
      by_cases isMain : action = .main
      · subst isMain
        rw [List.count_cons_self] at within
        cases todo with
        | nil =>
            simp [codeLength] at within
        | cons access others =>
            obtain ⟨left, held, after, reached, atLeft, still,
                shorter, same, receiver⟩ :=
              codeStep_confined code rest continuation
            have middleIs : middle = after := by
              simp only [step?, mainStep, pc, reached,
                Option.some.injEq, Prod.mk.injEq] at stepped
              exact stepped.1.symm
            subst middleIs
            have onward :=
              inductionHypothesis (mask.congr receiver) atLeft still
                continued (by omega)
            intro reg b gpio inside other
            rw [onward reg b gpio inside other,
              same reg b gpio inside other]
      · have frame := step?_frame stepped isMain
        obtain ⟨still, same⟩ :=
          step?_confined mask stepped isMain code
        have sameCount : (action :: later).count .main =
            later.count .main :=
          List.count_cons_of_ne isMain
        rw [sameCount] at within
        have onward :=
          inductionHypothesis (mask.congr frame.sameReceiver)
            (frame.pc.trans pc) still continued within
        intro reg b gpio inside other
        rw [onward reg b gpio inside other,
          same reg b gpio inside other]

end Machine

end KeyboardEmulator
