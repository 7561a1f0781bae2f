import KeyboardEmulator.RegisterCode
import KeyboardEmulator.SregDiscipline

namespace KeyboardEmulator

open BootKeyboard (Byte)

/-!
# Register bits the setup code settles

Main's setup code is fixed, so for each register bit the value it will have
once the remaining setup code has run can be computed from main's position.
Main's own accesses realise that value, and a handler can only move a bit
toward it.
-/

/-! ## The setup code of main -/

/-- `uart.begin(9600)` for receive pin 7 while no object listens. -/
def uartBeginCode : List Access :=
  [sbi .pcicr 2, .setPcintMask .pcmsk2 (bv 7),
    .clearOverflow, .resetTail, .resetHead,
    .setActive (some .uart), orMask .pcmsk2 (bv 7)]

/-- At 9600 baud the stop-bit delay is positive, so `begin` always listens. -/
theorem beginCode_eq
    {object : SoftwareSerial}
    (pin : object.receivePin = 7)
    (gccVersion : Nat) :
    (object.beginDelays gccVersion 9600).beginCode none =
      uartBeginCode := by
  have modern :
      SoftwareSerial.subtractCap
        (SoftwareSerial.bitDelay 9600 * 3 / 4) ((37 + 11) / 4) = 300 := by
    decide
  have older :
      SoftwareSerial.subtractCap
        (SoftwareSerial.bitDelay 9600 * 3 / 4) ((44 + 17) / 4) = 297 := by
    decide
  rw [SoftwareSerial.beginDelays]
  split
  · simp only [SoftwareSerial.beginCode, SoftwareSerial.listen, pin,
      modern]
    rfl
  · simp only [SoftwareSerial.beginCode, SoftwareSerial.listen, pin,
      older]
    rfl

/-- The setup code that still follows a position. -/
def Pos.remaining : Pos → List Access
  | .construct =>
      constructCode ++ (initCode ++ (serialBeginCode ++
        (uartBeginCode ++ Machine.ledSetup)))
  | .init =>
      initCode ++ (serialBeginCode ++
        (uartBeginCode ++ Machine.ledSetup))
  | .serialBegin =>
      serialBeginCode ++ (uartBeginCode ++ Machine.ledSetup)
  | .uartBegin =>
      uartBeginCode ++ Machine.ledSetup
  | .setTimeout =>
      Machine.ledSetup
  | _ =>
      []

/-- `uart.begin(9600)` has returned. -/
def Pos.returned : Pos → Bool
  | .construct | .init | .serialBegin | .uartBegin => false
  | _ => true

def Pc.returned : Pc → Bool
  | .code _ _ continuation =>
      continuation.returned && continuation != .setTimeout
  | .here position =>
      position.returned

/-- Main has not started the LED code that precedes the loop. -/
def Pc.inSetup : Pc → Bool
  | .code _ _ continuation =>
      !continuation.returned || continuation == .setTimeout
  | .here position =>
      !position.returned || position == .setTimeout

/-! ## The final value of a register bit -/

/-- The bit after the code in progress; a loaded value overrides the register. -/
def startedBit (reg : Reg) (b : Nat) (x : Bool) :
    List Access → Option Byte → Bool
  | .modify target keep set :: rest, some loaded =>
      codeBit reg b rest
        (if target = reg then
          (loaded.getLsbD b && keep.getLsbD b) || set.getLsbD b
        else
          x)
  | todo, _ =>
      codeBit reg b todo x

/-- Between two accesses nothing is loaded. -/
theorem startedBit_none
    (reg : Reg)
    (b : Nat)
    (x : Bool)
    (todo : List Access) :
    startedBit reg b x todo none = codeBit reg b todo x := by
  cases todo with
  | nil =>
      rfl
  | cons access rest =>
      cases access <;> rfl

/-- The bit after everything that main still does before it is in its loop. -/
def finalBit (reg : Reg) (b : Nat) (x : Bool) : Pc → Bool
  | .code todo loaded continuation =>
      codeBit reg b continuation.remaining
        (startedBit reg b x todo loaded)
  | .here (.write _ _ _ _ (.slowUcsrb (some loaded))) =>
      if reg = .ucsr0b then
        (loaded ||| bv udrie0).getLsbD b
      else
        x
  | .here position =>
      codeBit reg b position.remaining x

/-- A register bit and the level it must end at. -/
structure BitFact where
  reg : Reg
  b : Nat
  level : Bool
  deriving Repr, DecidableEq

/-- Pin-change reception, the two serial pins and the transmitter. -/
def receiverFacts : List BitFact :=
  [⟨.pcicr, 2, true⟩, ⟨.pcmsk2, 7, true⟩,
    ⟨.ddrD, 7, false⟩, ⟨.portD, 7, true⟩,
    ⟨.ddrB, 0, true⟩, ⟨.portB, 0, true⟩,
    ⟨.ucsr0b, txen0, true⟩]

/-- The two LED outputs. -/
def ledFacts : List BitFact :=
  [⟨.portB, 5, false⟩, ⟨.portD, 2, false⟩]

/-- The data-register-empty interrupt is off until the first write. -/
def udrieFact : BitFact :=
  ⟨.ucsr0b, udrie0, false⟩

/-- No handler moves the bit away from the level. -/
def BitFact.Stable (fact : BitFact) : Prop :=
  fact.reg ≠ .ucsr0a ∧
    (fact.reg = .pcmsk2 → fact.b = 7 → fact.level = true) ∧
    (fact.reg = .ucsr0b → fact.b = udrie0 → fact.level = false)

theorem stable_facts
    {fact : BitFact}
    (member : fact ∈ udrieFact :: (receiverFacts ++ ledFacts)) :
    fact.Stable := by
  simp only [receiverFacts, ledFacts, udrieFact, List.cons_append,
    List.nil_append, List.mem_cons, List.not_mem_nil,
    or_false] at member
  rcases member with
    rfl | rfl | rfl | rfl | rfl | rfl | rfl | rfl | rfl | rfl <;>
      simp [BitFact.Stable, udrie0, txen0]

/-- Whatever registers hold at reset, the setup code settles the bit. -/
theorem setup_settles
    {fact : BitFact}
    (member : fact ∈ udrieFact :: receiverFacts)
    (x : Bool) :
    codeBit fact.reg fact.b
      (constructCode ++ (initCode ++ (serialBeginCode ++
        uartBeginCode))) x = fact.level := by
  simp only [receiverFacts, udrieFact, List.mem_cons,
    List.not_mem_nil, or_false] at member
  rcases member with rfl | rfl | rfl | rfl | rfl | rfl | rfl | rfl <;>
    cases x <;> decide

/-- The LED code leaves the bits of the serial side alone. -/
theorem ledBits_receiver
    {fact : BitFact}
    (member : fact ∈ udrieFact :: receiverFacts) :
    fact.b < 8 ∧ (ledBits fact.reg).getLsbD fact.b = false := by
  simp only [receiverFacts, udrieFact, List.mem_cons,
    List.not_mem_nil, or_false] at member
  rcases member with rfl | rfl | rfl | rfl | rfl | rfl | rfl | rfl <;>
    decide

theorem codeBit_blinkLed_receiver
    {fact : BitFact}
    (member : fact ∈ udrieFact :: receiverFacts)
    {pin : Pin}
    (led : isLedPin pin)
    (cycles : BitVec 32)
    (x : Bool) :
    codeBit fact.reg fact.b (blinkLed cycles pin) x = x :=
  codeBit_confined (confined_blinkLed_led led cycles)
    (ledBits_receiver member).1 (ledBits_receiver member).2 x

theorem codeBit_ledSetup_receiver
    {fact : BitFact}
    (member : fact ∈ udrieFact :: receiverFacts)
    (x : Bool) :
    codeBit fact.reg fact.b Machine.ledSetup x = x :=
  codeBit_confined confined_ledSetup
    (ledBits_receiver member).1 (ledBits_receiver member).2 x

/-- Blinking one LED leaves the output bit of the other alone. -/
theorem codeBit_blinkLed_other
    {pin : Pin}
    (led : isLedPin pin)
    {reg : Reg}
    {b : Nat}
    (inside : b < 8)
    (other : (outputBit pin reg).getLsbD b = false)
    (cycles : BitVec 32)
    (x : Bool) :
    codeBit reg b (blinkLed cycles pin) x = x :=
  codeBit_confined (confined_blinkLed led cycles) inside other x

/-- Every `blinkLED` call of main ends with both LEDs low, given they were. -/
theorem codeBit_blinkLed_ledFact
    {fact : BitFact}
    (member : fact ∈ ledFacts)
    {pin : Pin}
    (led : isLedPin pin) :
    codeBit fact.reg fact.b (blinkLed 1000 pin) fact.level =
      fact.level := by
  have positive : 0 < ((1000 : BitVec 32) >>> 1).toNat := by
    decide
  simp only [ledFacts, List.mem_cons, List.not_mem_nil,
    or_false] at member
  rcases member with rfl | rfl <;> rcases led with rfl | rfl
  · exact codeBit_blinkLed_low (by decide) positive _
  · exact codeBit_blinkLed_other (.inr rfl) (by decide) (by decide) _ _
  · exact codeBit_blinkLed_other (.inl rfl) (by decide) (by decide) _ _
  · exact codeBit_blinkLed_low (by decide) positive _

/-- The code before the loop ends with both LEDs low. -/
theorem codeBit_ledSetup_ledFact
    {fact : BitFact}
    (member : fact ∈ ledFacts)
    (x : Bool) :
    codeBit fact.reg fact.b Machine.ledSetup x = fact.level := by
  have positive : 0 < ((100000 : BitVec 32) >>> 1).toNat := by
    decide
  simp only [ledFacts, List.mem_cons, List.not_mem_nil,
    or_false] at member
  rw [Machine.ledSetup, codeBit_append, codeBit_append]
  rcases member with rfl | rfl
  · rw [codeBit_blinkLed_other (.inr rfl) (by decide) (by decide)]
    exact codeBit_blinkLed_low (by decide) positive _
  · exact codeBit_blinkLed_low (by decide) positive _

/-- From the first statement on, every bit settles. -/
theorem finalBit_construct
    {fact : BitFact}
    (member : fact ∈ udrieFact :: (receiverFacts ++ ledFacts))
    (x : Bool) :
    finalBit fact.reg fact.b x (.here .construct) = fact.level := by
  rw [finalBit, Pos.remaining, ← List.append_assoc serialBeginCode,
    ← List.append_assoc initCode, ← List.append_assoc constructCode,
    codeBit_append]
  · rw [← List.cons_append, List.mem_append] at member
    rcases member with receiver | led
    · rw [codeBit_ledSetup_receiver receiver]
      exact setup_settles receiver x
    · exact codeBit_ledSetup_ledFact led _
  · intros
    contradiction

/-- Either a loaded value decides the final bit, or remaining code computes it. -/
theorem finalBit_shape (reg : Reg) (b : Nat) (pc : Pc) :
    (∃ level, ∀ x, finalBit reg b x pc = level) ∨
      ∃ todo, ∀ x, finalBit reg b x pc = codeBit reg b todo x := by
  cases pc with
  | code todo loaded continuation =>
      have plain :
          (∀ x, startedBit reg b x todo loaded = codeBit reg b todo x) →
            ∃ code, ∀ x, finalBit reg b x
              (.code todo loaded continuation) = codeBit reg b code x := by
        intro started
        refine ⟨todo ++ continuation.remaining, fun x => ?_⟩
        rw [finalBit, started, codeBit_append]
      cases loaded with
      | none =>
          exact .inr (plain (fun x => startedBit_none reg b x todo))
      | some value =>
          cases todo with
          | nil =>
              exact .inr (plain (fun x => rfl))
          | cons access rest =>
              cases access with
              | modify target keep set =>
                  by_cases same : target = reg
                  · left
                    refine ⟨codeBit reg b continuation.remaining
                      (codeBit reg b rest
                        ((value.getLsbD b && keep.getLsbD b) ||
                          set.getLsbD b)), fun x => ?_⟩
                    rw [finalBit, startedBit, if_pos same]
                  · right
                    refine ⟨rest ++ continuation.remaining, fun x => ?_⟩
                    rw [finalBit, startedBit, if_neg same, codeBit_append]
              | _ =>
                  exact .inr (plain (fun x => rfl))
  | here position =>
      by_cases loads :
          ∃ command rest n c loaded,
            position = .write command rest n c (.slowUcsrb (some loaded))
      · obtain ⟨command, rest, n, c, loaded, rfl⟩ := loads
        by_cases same : reg = .ucsr0b
        · left
          refine ⟨(loaded ||| bv udrie0).getLsbD b, fun x => ?_⟩
          rw [finalBit, if_pos same]
        · right
          refine ⟨[], fun x => ?_⟩
          rw [finalBit, if_neg same]
          rfl
      · right
        refine ⟨position.remaining, fun x => ?_⟩
        rw [finalBit]
        intro command rest n c loaded shape
        exact loads ⟨command, rest, n, c, loaded, shape⟩

/-- Moving a bit toward its final level does not change the outcome. -/
theorem finalBit_toward
    {reg : Reg}
    {b : Nat}
    {x level : Bool}
    {pc : Pc}
    (final : finalBit reg b x pc = level) :
    finalBit reg b level pc = level := by
  rcases finalBit_shape reg b pc with ⟨fixed, constant⟩ | ⟨todo, computed⟩
  · rw [constant] at final ⊢
    exact final
  · rw [computed] at final ⊢
    exact codeBit_toward final

end KeyboardEmulator
