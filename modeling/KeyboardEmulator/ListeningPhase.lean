import KeyboardEmulator.LedCalls
import KeyboardEmulator.SettledBits

namespace KeyboardEmulator

open BootKeyboard (Byte)

/-!
# What main executes in each phase

Up to `uart.begin` no object listens; after it main's object does, and the only
straight-line code left is that of the two LEDs.  In between, the position in
the code of `begin` tells which of its assignments have been made.
-/

theorem registersOnly_constructCode :
    ∀ access ∈ constructCode, access.registersOnly = true := by
  decide

theorem registersOnly_initCode :
    ∀ access ∈ initCode, access.registersOnly = true := by
  decide

theorem registersOnly_serialBeginCode :
    ∀ access ∈ serialBeginCode, access.registersOnly = true := by
  decide

namespace Machine

/-- `uart` is constructed and does not listen. -/
structure Constructed (m : Machine) : Prop where
  receivePin : m.uart.receivePin = 7
  inverseLogic : m.uart.inverseLogic = false
  inactive : m.activeObject = none

/-- `uart` listens on pin 7. -/
structure Listening (m : Machine) : Prop where
  inverseLogic : m.uart.inverseLogic = false
  maskreg : m.uart.pcintMaskreg = .pcmsk2
  maskvalue : m.uart.pcintMaskvalue = bv 7
  active : m.activeObject = some .uart

/-- Main is in the code of `uart.begin`. -/
structure Beginning (m : Machine) (todo : List Access) : Prop where
  suffix : todo <:+ uartBeginCode
  inverseLogic : m.uart.inverseLogic = false
  masked :
    .setPcintMask .pcmsk2 (bv 7) ∉ todo →
      m.uart.pcintMaskreg = .pcmsk2 ∧ m.uart.pcintMaskvalue = bv 7
  active :
    m.activeObject =
      if .setActive (some .uart) ∈ todo then none else some .uart

/-- Main is in LED code, with a loaded value that is current. -/
structure Blinking
    (m : Machine)
    (todo : List Access)
    (loaded : Option Byte) : Prop where
  listening : m.Listening
  code : ConfinedCode ledBits m.io todo loaded

/-- The phase outside straight-line code. -/
def HerePhase (m : Machine) : Pos → Prop
  | .construct =>
      m.activeObject = none
  | .init | .serialBegin | .uartBegin =>
      m.Constructed
  | _ =>
      m.Listening

/-- The phase inside straight-line code, from where it continues. -/
def CodePhase
    (m : Machine)
    (todo : List Access)
    (loaded : Option Byte) : Pos → Prop
  | .construct | .init | .serialBegin | .uartBegin =>
      m.Constructed ∧ ∀ access ∈ todo, access.registersOnly = true
  | .setTimeout =>
      m.Beginning todo
  | _ =>
      m.Blinking todo loaded

/-- The phase that main's position implies. -/
def Phase (m : Machine) : Prop :=
  match m.pc with
  | .code todo loaded continuation =>
      m.CodePhase todo loaded continuation
  | .here position =>
      m.HerePhase position

/-! ## What the phase depends on -/

variable {before after : Machine}

theorem Constructed.congr
    (constructed : before.Constructed)
    (same : SameReceiver before after) :
    after.Constructed where
  receivePin := same.receivePin.trans constructed.receivePin
  inverseLogic := same.inverseLogic.trans constructed.inverseLogic
  inactive := same.activeObject.trans constructed.inactive

theorem Listening.congr
    (listening : before.Listening)
    (same : SameReceiver before after) :
    after.Listening where
  inverseLogic := same.inverseLogic.trans listening.inverseLogic
  maskreg := same.maskreg.trans listening.maskreg
  maskvalue := same.maskvalue.trans listening.maskvalue
  active := same.activeObject.trans listening.active

theorem Beginning.congr
    {todo : List Access}
    (beginning : before.Beginning todo)
    (same : SameReceiver before after) :
    after.Beginning todo where
  suffix := beginning.suffix
  inverseLogic := same.inverseLogic.trans beginning.inverseLogic
  masked := by
    rw [same.maskreg, same.maskvalue]
    exact beginning.masked
  active := same.activeObject.trans beginning.active

theorem HerePhase.congr
    {position : Pos}
    (phase : before.HerePhase position)
    (same : SameReceiver before after) :
    after.HerePhase position := by
  cases position with
  | construct =>
      exact same.activeObject.trans phase
  | init | serialBegin | uartBegin =>
      exact Constructed.congr phase same
  | _ =>
      exact Listening.congr phase same

/-- The mask is assigned before the object becomes active. -/
theorem Beginning.maskOk
    {m : Machine}
    {todo : List Access}
    (beginning : m.Beginning todo) :
    m.MaskOk := by
  intro active
  apply beginning.masked
  intro pending
  have inactive := beginning.active
  have suffix := beginning.suffix
  have alsoPending : .setActive (some .uart) ∈ todo := by
    simp only [uartBeginCode, List.suffix_cons_iff,
      List.suffix_nil] at suffix
    rcases suffix with rfl | rfl | rfl | rfl | rfl | rfl | rfl | rfl <;>
      first
        | exact absurd pending (by decide)
        | decide
  rw [if_pos alsoPending, active] at inactive
  contradiction

/-- In every phase an active object has the mask of pin 7. -/
theorem Phase.maskOk
    {m : Machine}
    (phase : m.Phase) :
    m.MaskOk := by
  rw [Phase] at phase
  have idle : m.activeObject = none → m.MaskOk := by
    intro inactive active
    rw [inactive] at active
    contradiction
  have listens : m.Listening → m.MaskOk :=
    fun listening _ => ⟨listening.maskreg, listening.maskvalue⟩
  split at phase
  next todo loaded continuation _ =>
    cases continuation with
    | construct | init | serialBegin | uartBegin =>
        exact idle phase.1.inactive
    | setTimeout =>
        exact phase.maskOk
    | _ =>
        exact listens phase.listening
  next position _ =>
    cases position with
    | construct =>
        exact idle phase
    | init | serialBegin | uartBegin =>
        exact idle phase.inactive
    | _ =>
        exact listens phase

/-! ## Steps of main -/

/-- Setup code that only touches registers stays in its phase. -/
theorem Constructed.codeStep
    {m : Machine}
    {todo : List Access}
    {continuation : Pos}
    (constructed : m.Constructed)
    (registers : ∀ access ∈ todo, access.registersOnly = true)
    (loaded : Option Byte)
    (setup : continuation.returned = false) :
    (m.codeStep todo loaded continuation).Phase := by
  have stays :
      ∀ {after : Machine} {rest : List Access} {held : Option Byte},
        SameReceiver m after →
        after.pc = .code rest held continuation →
        (∀ access ∈ rest, access.registersOnly = true) →
        after.Phase := by
    intro after rest held same pc still
    rw [Phase, pc]
    cases continuation <;>
      first
        | exact ⟨constructed.congr same, still⟩
        | contradiction
  cases todo with
  | nil =>
      have kept : SameReceiver m (m.codeStep [] loaded continuation) :=
        .of_eq rfl rfl
      cases continuation <;>
        first
          | exact constructed.congr kept
          | exact (constructed.congr kept).inactive
          | contradiction
  | cons access rest =>
      have later : ∀ other ∈ rest, other.registersOnly = true :=
        fun other member => registers other (by simp [member])
      have touches :=
        perform_sameReceiver m (loaded.getD 0)
          (registers access (by simp))
      cases access with
      | modify reg keep set =>
          cases loaded with
          | none =>
              exact stays (.of_eq rfl rfl) rfl registers
          | some value =>
              exact stays ⟨touches.1, touches.2, touches.3, touches.4,
                touches.5⟩ rfl later
      | _ =>
          exact stays ⟨touches.1, touches.2, touches.3, touches.4,
            touches.5⟩ rfl later

/-- After `begin`, the phase of straight-line code is the LED code. -/
theorem CodePhase.of_blinking
    {m : Machine}
    {todo : List Access}
    {loaded : Option Byte}
    {continuation : Pos}
    (blinking : m.Blinking todo loaded)
    (looping : continuation.returned = true)
    (notBegin : continuation ≠ .setTimeout) :
    m.CodePhase todo loaded continuation := by
  cases continuation <;> first | exact blinking | contradiction

theorem HerePhase.of_listening
    {m : Machine}
    {position : Pos}
    (listening : m.Listening)
    (looping : position.returned = true) :
    m.HerePhase position := by
  cases position <;> first | exact listening | contradiction

/-- The LED code of the loop stays in its phase. -/
theorem Blinking.codeStep
    {m : Machine}
    {todo : List Access}
    {loaded : Option Byte}
    {continuation : Pos}
    (blinking : m.Blinking todo loaded)
    (looping : continuation.returned = true)
    (notBegin : continuation ≠ .setTimeout) :
    (m.codeStep todo loaded continuation).Phase := by
  cases todo with
  | nil =>
      exact HerePhase.of_listening
        (blinking.listening.congr (.of_eq rfl rfl)) looping
  | cons access others =>
      obtain ⟨left, held, after, reached, atLeft, still, _, _, receiver⟩ :=
        codeStep_confined blinking.code [] continuation
      rw [List.append_nil] at reached atLeft
      rw [reached, Phase, atLeft]
      exact .of_blinking ⟨blinking.listening.congr receiver, still⟩
        looping notBegin

/-- The code of `uart.begin` makes its assignments in order. -/
theorem Beginning.codeStep
    {m : Machine}
    {todo : List Access}
    (beginning : m.Beginning todo)
    (loaded : Option Byte) :
    (m.codeStep todo loaded .setTimeout).Phase := by
  obtain ⟨suffix, inverseLogic, masked, active⟩ := beginning
  simp only [uartBeginCode, List.suffix_cons_iff,
    List.suffix_nil] at suffix
  rcases suffix with rfl | rfl | rfl | rfl | rfl | rfl | rfl | rfl
  case inr.inr.inr.inr.inr.inr.inr =>
    obtain ⟨maskreg, maskvalue⟩ := masked (by decide)
    exact ⟨inverseLogic, maskreg, maskvalue, active⟩
  all_goals
    cases loaded <;>
      exact ⟨by decide, inverseLogic,
        fun absent => by
          first
            | exact ⟨rfl, rfl⟩
            | exact masked (by decide)
            | exact absurd absent (by decide),
        by first | exact active | rfl⟩

/-- Entering the code of one `blinkLED` call of the loop. -/
theorem Blinking.blinkLed
    {m : Machine}
    (listening : m.Listening)
    {pin : Pin}
    (led : isLedPin pin)
    (cycles : BitVec 32) :
    m.Blinking (KeyboardEmulator.blinkLed cycles pin) none :=
  ⟨listening, ⟨confined_blinkLed_led led cycles, by simp [LoadedCurrent]⟩⟩

theorem Phase.setupStep
    {m : Machine}
    {position : Pos}
    (pc : m.pc = .here position)
    (phase : m.HerePhase position) :
    (m.setupStep position).Phase := by
  cases position with
  | construct =>
      exact ⟨⟨rfl, rfl, phase⟩, registersOnly_constructCode⟩
  | init =>
      exact ⟨Constructed.congr phase (.of_eq rfl rfl),
        registersOnly_initCode⟩
  | serialBegin =>
      exact ⟨Constructed.congr phase (.of_eq rfl rfl),
        registersOnly_serialBeginCode⟩
  | uartBegin =>
      obtain ⟨receivePin, inverseLogic, inactive⟩ := phase
      have tunedLogic :
          (m.uart.beginDelays m.gccVersion 9600).inverseLogic = false := by
        rw [SoftwareSerial.beginDelays]
        split <;> exact inverseLogic
      simp only [Machine.setupStep, Phase, inactive,
        beginCode_eq receivePin]
      exact ⟨List.suffix_rfl, tunedLogic,
        fun absent => absurd absent (by decide),
        by rw [if_pos (by decide)]⟩
  | setTimeout =>
      exact ⟨Listening.congr phase (.of_eq rfl rfl),
        ⟨confined_ledSetup, by simp [LoadedCurrent]⟩⟩
  | _ =>
      simpa only [Machine.setupStep, Phase, pc] using phase

theorem Phase.pollStep
    {m : Machine}
    {position : Pos}
    (pc : m.pc = .here position)
    (listening : m.Listening)
    (looping : position.returned = true) :
    (m.pollStep position).Phase := by
  have same : ∀ {after}, SameReceiver m after → after.Listening :=
    fun receiver => listening.congr receiver
  cases position with
  | loopHead =>
      rw [Machine.pollStep]
      split <;> exact same (.of_eq rfl rfl)
  | availHead tail =>
      rw [Machine.pollStep]
      split
      · change Blinking _ (blinkLed 1000 13) none
        refine .blinkLed (same ?_) (.inl rfl) 1000
        exact .of_eq rfl rfl
      · exact same (.of_eq rfl rfl)
  | _ =>
      simp only [Machine.pollStep, Phase, pc]
      exact .of_listening listening looping

theorem Phase.readStep
    {m : Machine}
    {position : Pos}
    (pc : m.pc = .here position)
    (listening : m.Listening)
    (looping : position.returned = true) :
    (m.readStep position).1.Phase := by
  have same : ∀ {after}, SameReceiver m after → after.Listening :=
    fun receiver => listening.congr receiver
  cases position with
  | readHead | readTail head =>
      rw [Machine.readStep]
      split <;> exact same (.of_eq rfl rfl)
  | readIndex | readCell index | readNext d | readStore d head =>
      exact same (.of_eq rfl rfl)
  | _ =>
      simp only [Machine.readStep, Phase, pc]
      exact .of_listening listening looping

theorem writeStep_sameReceiver
    (m : Machine)
    (frame : WriteAt → Pos)
    (c : Byte)
    (position : WriteAt) :
    SameReceiver m (m.writeStep frame c position).1 := by
  cases position with
  | compareTail head | testUdre | spin i | spinSreg i | spinUdre i =>
      rw [writeStep]
      split <;> exact .of_eq rfl rfl
  | fastUcsra loaded | slowUcsrb loaded =>
      cases loaded <;> exact .of_eq rfl rfl
  | _ =>
      exact .of_eq rfl rfl

theorem Phase.sendStep
    {m : Machine}
    {position : Pos}
    (pc : m.pc = .here position)
    (listening : m.Listening)
    (looping : position.returned = true) :
    (m.sendStep position).1.Phase := by
  have same : ∀ {after}, SameReceiver m after → after.Listening :=
    fun receiver => listening.congr receiver
  cases position with
  | translate ret =>
      simp only [Machine.sendStep, Phase]
      cases (translateInput (BitVec.ofInt 8 ret) m.keyboardBuffer).1 with
      | true =>
          simp only [↓reduceIte]
          change Blinking _ (blinkLed 1000 2) none
          refine .blinkLed (same ?_) (.inr rfl) 1000
          exact .of_eq rfl rfl
      | false =>
          exact same (.of_eq rfl rfl)
  | sendKey =>
      exact same (.of_eq rfl rfl)
  | print command buffer n =>
      cases buffer <;> cases command <;>
        exact same (.of_eq rfl rfl)
  | write command rest n c position =>
      have receiver := fun frame =>
        same (writeStep_sameReceiver m frame c position)
      cases position with
      | compareTail | testUdre | spin | spinSreg | spinUdre =>
          simp only [Machine.sendStep, Machine.writeStep] at receiver ⊢
          split <;> exact same (.of_eq rfl rfl)
      | fastUcsra loaded | slowUcsrb loaded =>
          cases loaded <;> exact same (.of_eq rfl rfl)
      | _ =>
          exact same (.of_eq rfl rfl)
  | _ =>
      simp only [Machine.sendStep, Phase, pc]
      exact .of_listening listening looping

/-- Main's steps lead from phase to phase. -/
theorem Phase.mainStep
    {m : Machine}
    (phase : m.Phase) :
    m.mainStep.1.Phase := by
  rw [Machine.mainStep]
  cases pc : m.pc with
  | code todo loaded continuation =>
      rw [Phase, pc] at phase
      cases continuation <;> dsimp only
      case construct | init | serialBegin | uartBegin =>
          exact Constructed.codeStep phase.1 phase.2 loaded rfl
      case setTimeout =>
          exact phase.codeStep loaded
      all_goals
        exact Blinking.codeStep phase rfl (by simp)
  | here position =>
      rw [Phase, pc] at phase
      cases position <;> dsimp only
      case construct | init | serialBegin | uartBegin | setTimeout =>
          exact .setupStep pc phase
      case loopHead | availHead =>
          exact .pollStep pc phase rfl
      case readHead | readTail | readIndex | readCell
          | readNext | readStore =>
          exact .readStep pc phase rfl
      case translate | sendKey | print | write =>
          exact .sendStep pc phase rfl

/-- Every step of the system keeps the phase in line with main's position. -/
theorem Phase.step?
    {m : Machine}
    {action : Action}
    {result : Machine × List Event}
    (phase : m.Phase)
    (stepped : m.step? action = some result) :
    result.1.Phase := by
  by_cases isMain : action = .main
  · subst isMain
    cases stepped
    exact phase.mainStep
  · have frame := step?_frame stepped isMain
    have same := frame.sameReceiver
    have mask := phase.maskOk
    rw [Phase] at phase ⊢
    rw [frame.pc]
    cases pc : m.pc with
    | code todo loaded continuation =>
        rw [pc] at phase
        cases continuation
        case construct | init | serialBegin | uartBegin =>
            exact ⟨Constructed.congr phase.1 same, phase.2⟩
        case setTimeout =>
            exact Beginning.congr phase same
        all_goals
          exact ⟨phase.listening.congr same,
            (step?_confined mask stepped isMain phase.code).1⟩
    | here position =>
        rw [pc] at phase
        exact HerePhase.congr phase same

theorem Reset.phase {m : Machine} (reset : m.Reset) : m.Phase := by
  rw [Phase, reset.atStart]
  exact reset.inactive

end Machine

end KeyboardEmulator
