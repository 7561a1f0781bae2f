import KeyboardEmulator.ListeningPhase

namespace KeyboardEmulator

open BootKeyboard (Byte)

/-!
# The receiver never goes deaf

The bits that reception, the serial pins and the transmitter need are on course
to their level from reset on, and at it once `uart.begin` has returned.
-/

/-- Between two loads the remaining code alone decides. -/
theorem finalBit_here
    (reg : Reg)
    (b : Nat)
    (x : Bool)
    {position : Pos}
    (outside : position.mode = .outside) :
    finalBit reg b x (.here position) =
      codeBit reg b position.remaining x := by
  rw [finalBit]
  rintro command rest n c loaded rfl
  contradiction

/-- Nothing of the setup code remains in the loop. -/
theorem Pos.remaining_eq_nil
    {position : Pos}
    (returned : position.returned = true)
    (notSetTimeout : position ≠ .setTimeout) :
    position.remaining = [] := by
  cases position <;>
    first
      | rfl
      | exact absurd returned (by decide)
      | exact absurd rfl notSetTimeout

/-- The facts that hold throughout the loop. -/
def loopFacts : List BitFact :=
  receiverFacts ++ ledFacts

/-- `write` turns UDRIE on; the loop's facts are about other bits. -/
theorem loopFacts_notUdrie
    {fact : BitFact}
    (member : fact ∈ loopFacts) :
    fact.reg ≠ .ucsr0a ∧ ¬ (fact.reg = .ucsr0b ∧ fact.b = udrie0) := by
  simp only [loopFacts, receiverFacts, ledFacts, List.cons_append,
    List.nil_append, List.mem_cons, List.not_mem_nil,
    or_false] at member
  rcases member with
    rfl | rfl | rfl | rfl | rfl | rfl | rfl | rfl | rfl <;>
      decide

/-- A `blinkLED` call of the loop leaves every fact as it was. -/
theorem codeBit_blinkLed_loopFact
    {fact : BitFact}
    (member : fact ∈ loopFacts)
    {pin : Pin}
    (led : isLedPin pin) :
    codeBit fact.reg fact.b (blinkLed 1000 pin) fact.level =
      fact.level := by
  rcases List.mem_append.mp member with receiver | ledFact
  · exact codeBit_blinkLed_receiver (by simp [receiver]) led 1000 _
  · exact codeBit_blinkLed_ledFact ledFact led

namespace Machine

/-- The bit will be at its level once the remaining setup code has run. -/
def SettlesAt (m : Machine) (fact : BitFact) : Prop :=
  finalBit fact.reg fact.b (m.io.bit fact.reg fact.b) m.pc = fact.level

/-- Straight-line code realises the final value it determines. -/
theorem SettlesAt.codeStep
    {m : Machine}
    {fact : BitFact}
    {todo : List Access}
    {loaded : Option Byte}
    {continuation : Pos}
    (pc : m.pc = .code todo loaded continuation)
    (resumes : continuation.mode = .outside)
    (plain : fact.reg ≠ .ucsr0a)
    (settles : m.SettlesAt fact) :
    (m.codeStep todo loaded continuation).SettlesAt fact := by
  rw [SettlesAt, pc, finalBit] at settles
  cases todo with
  | nil =>
      rw [SettlesAt, Machine.codeStep, finalBit_here _ _ _ resumes,
        ← settles]
      rfl
  | cons access rest =>
      have stored :
          ∀ (target : Reg) (value : BitVec 8),
            (m.io.store target value).bit fact.reg fact.b =
              if target = fact.reg then value.getLsbD fact.b
              else m.io.bit fact.reg fact.b := by
        intro target value
        by_cases same : target = fact.reg
        · subst same
          rw [IoFile.bit_store_same _ plain, if_pos rfl]
        · rw [IoFile.bit_store_other _ (Ne.symm same), if_neg same]
      cases access with
      | modify target keep set =>
          cases loaded with
          | none =>
              rw [SettlesAt, Machine.codeStep, finalBit, ← settles,
                startedBit, startedBit_none, codeBit_cons,
                Access.bitAfter]
              by_cases same : target = fact.reg <;>
                simp [same, IoFile.bit]
          | some value =>
              rw [SettlesAt, ← settles]
              simp only [Machine.codeStep, perform, finalBit,
                startedBit, stored, Option.getD_some,
                BitVec.getLsbD_or, BitVec.getLsbD_and]
      | assign target value =>
          rw [SettlesAt, ← settles]
          simp only [Machine.codeStep, perform, finalBit,
            startedBit_none, stored]
          cases loaded <;> rfl
      | _ =>
          rw [SettlesAt, ← settles]
          simp only [Machine.codeStep, perform, finalBit, startedBit_none]
          cases loaded <;> rfl

/-- A setup call starts the code that its position announces. -/
theorem SettlesAt.setupStep
    {m : Machine}
    {fact : BitFact}
    {position : Pos}
    (pc : m.pc = .here position)
    (phase : m.HerePhase position)
    (settles : m.SettlesAt fact) :
    (m.setupStep position).SettlesAt fact := by
  rw [SettlesAt, pc] at settles
  cases position with
  | construct | init | serialBegin =>
      rw [SettlesAt, ← settles, finalBit_here _ _ _ rfl, Pos.remaining,
        codeBit_append]
      simp only [Machine.setupStep, finalBit, startedBit_none]
      rfl
  | uartBegin =>
      rw [SettlesAt, ← settles, finalBit_here _ _ _ rfl, Pos.remaining,
        codeBit_append]
      simp only [Machine.setupStep, finalBit, startedBit_none,
        phase.inactive, beginCode_eq phase.receivePin]
      rfl
  | setTimeout =>
      have announced : Pos.remaining .setTimeout = ledSetup := rfl
      have done : Pos.remaining .loopHead = [] := rfl
      rw [finalBit_here _ _ _ rfl, announced] at settles
      rw [SettlesAt, Machine.setupStep, finalBit, startedBit_none,
        done, codeBit_nil]
      exact settles
  | _ =>
      rw [SettlesAt]
      simpa only [Machine.setupStep, pc] using settles

/-- Where nothing remains to be run or stored, the bit is at its level. -/
theorem settlesAt_iff
    {m : Machine}
    {fact : BitFact}
    {position : Pos}
    (pc : m.pc = .here position)
    (outside : position.mode = .outside)
    (done : position.remaining = []) :
    m.SettlesAt fact ↔ m.io.bit fact.reg fact.b = fact.level := by
  rw [SettlesAt, pc, finalBit_here _ _ _ outside, done, codeBit_nil]

/-- Entering LED code of the loop. -/
theorem settlesAt_blinkLed
    {m : Machine}
    {fact : BitFact}
    (member : fact ∈ loopFacts)
    {pin : Pin}
    (led : isLedPin pin)
    {continuation : Pos}
    (pc : m.pc = .code (blinkLed 1000 pin) none continuation)
    (done : continuation.remaining = [])
    (settled : m.io.bit fact.reg fact.b = fact.level) :
    m.SettlesAt fact := by
  rw [SettlesAt, pc, finalBit, startedBit_none, done, codeBit_nil, settled]
  exact codeBit_blinkLed_loopFact member led

theorem SettlesAt.pollStep
    {m : Machine}
    {fact : BitFact}
    (member : fact ∈ loopFacts)
    {position : Pos}
    (pc : m.pc = .here position)
    (settles : m.SettlesAt fact) :
    (m.pollStep position).SettlesAt fact := by
  cases position with
  | loopHead =>
      have settled := (settlesAt_iff pc rfl rfl).mp settles
      rw [Machine.pollStep]
      split <;> exact (settlesAt_iff rfl rfl rfl).mpr settled
  | availHead tail =>
      have settled := (settlesAt_iff pc rfl rfl).mp settles
      rw [Machine.pollStep]
      split
      · exact settlesAt_blinkLed member (.inl rfl) rfl rfl settled
      · exact (settlesAt_iff rfl rfl rfl).mpr settled
  | _ =>
      exact settles

theorem SettlesAt.readStep
    {m : Machine}
    {fact : BitFact}
    {position : Pos}
    (pc : m.pc = .here position)
    (settles : m.SettlesAt fact) :
    (m.readStep position).1.SettlesAt fact := by
  cases position with
  | readHead | readTail head =>
      have settled := (settlesAt_iff pc rfl rfl).mp settles
      rw [Machine.readStep]
      split <;> exact (settlesAt_iff rfl rfl rfl).mpr settled
  | readIndex | readCell index | readNext d | readStore d head =>
      have settled := (settlesAt_iff pc rfl rfl).mp settles
      exact (settlesAt_iff rfl rfl rfl).mpr settled
  | _ =>
      exact settles

/-- Of the bits outside `UCSR0A`, `write` changes UDRIE only. -/
theorem SettlesAt.writeStep
    {m : Machine}
    {fact : BitFact}
    (plain : fact.reg ≠ .ucsr0a)
    (notUdrie : ¬ (fact.reg = .ucsr0b ∧ fact.b = udrie0))
    {command : Command}
    {rest : List Byte}
    {n : Nat}
    {c : Byte}
    {position : WriteAt}
    (pc : m.pc = .here (.write command rest n c position))
    (settles : m.SettlesAt fact) :
    (m.writeStep (.write command rest n c) c position).1.SettlesAt
      fact := by
  rw [SettlesAt, pc] at settles
  cases position with
  | compareHead | fastSave | fastCli | fastRestore | nextIndex
  | cellIndex i | cell i head | slowSave i | slowCli i | slowHead i
  | slowRestore =>
      exact settles
  | compareTail head | testUdre | spin i | spinSreg i =>
      rw [Machine.writeStep]
      split <;> exact settles
  | spinUdre i =>
      rw [Machine.writeStep]
      split
      · rcases bit_txUdrEmptyIrq m plain fact.b with same | ⟨isB, isE, _⟩
        · exact same.trans settles
        · exact (notUdrie ⟨isB, isE⟩).elim
      · exact settles
  | fastUdr =>
      exact (IoFile.bit_force_other _ plain _ _ _).trans settles
  | fastUcsra loaded =>
      cases loaded with
      | none =>
          exact settles
      | some ucsra =>
          exact (IoFile.bit_store_other _ plain _ _).trans settles
  | slowUcsrb loaded =>
      cases loaded with
      | none =>
          rw [SettlesAt, ← settles]
          simp only [Machine.writeStep, finalBit]
          split
          next same =>
            rw [BitVec.getLsbD_or, getLsbD_bv,
              decide_eq_false (fun isE => notUdrie ⟨same, isE⟩),
              Bool.and_false, Bool.or_false, same]
            rfl
          next =>
            rfl
      | some ucsrb =>
          rw [SettlesAt, ← settles]
          simp only [Machine.writeStep, finalBit]
          split
          next same =>
            rw [same, IoFile.bit_store_same _ (by decide)]
            rfl
          next different =>
            exact IoFile.bit_store_other _ different _ _
  | ret =>
      rw [SettlesAt]
      simpa only [Machine.writeStep, pc] using settles

theorem SettlesAt.sendStep
    {m : Machine}
    {fact : BitFact}
    (member : fact ∈ loopFacts)
    {position : Pos}
    (pc : m.pc = .here position)
    (settles : m.SettlesAt fact) :
    (m.sendStep position).1.SettlesAt fact := by
  cases position with
  | translate ret =>
      have settled := (settlesAt_iff pc rfl rfl).mp settles
      cases found :
          (translateInput (BitVec.ofInt 8 ret) m.keyboardBuffer).1 with
      | true =>
          have sends :
              (m.sendStep (.translate ret)).1.pc =
                .code (blinkLed 1000 2) none .sendKey := by
            simp only [Machine.sendStep, found, ↓reduceIte]
          exact settlesAt_blinkLed member (.inr rfl) sends rfl settled
      | false =>
          have returns :
              (m.sendStep (.translate ret)).1.pc = .here .loopHead := by
            simp [Machine.sendStep, found]
          exact (settlesAt_iff returns rfl rfl).mpr settled
  | sendKey =>
      have settled := (settlesAt_iff pc rfl rfl).mp settles
      exact (settlesAt_iff rfl rfl rfl).mpr settled
  | print command buffer n =>
      have settled := (settlesAt_iff pc rfl rfl).mp settles
      cases buffer <;> cases command <;>
        exact (settlesAt_iff rfl rfl rfl).mpr settled
  | write command rest n c position =>
      obtain ⟨plain, notUdrie⟩ := loopFacts_notUdrie member
      by_cases returned : position = .ret
      · subst returned
        have settled := (settlesAt_iff pc rfl rfl).mp settles
        exact (settlesAt_iff rfl rfl rfl).mpr settled
      · rw [Machine.sendStep]
        · exact settles.writeStep plain notUdrie pc
        · exact returned
  | _ =>
      exact settles

/-- Main's steps keep the loop's facts on course. -/
theorem SettlesAt.mainStep
    {m : Machine}
    {fact : BitFact}
    (member : fact ∈ loopFacts)
    (ok : m.SregOk)
    (phase : m.Phase)
    (settles : m.SettlesAt fact) :
    m.mainStep.1.SettlesAt fact := by
  rw [Machine.mainStep]
  cases pc : m.pc with
  | code todo loaded continuation =>
      exact settles.codeStep pc (ok.brackets pc).2
        (loopFacts_notUdrie member).1
  | here position =>
      rw [Phase, pc] at phase
      cases position <;> dsimp only
      case construct | init | serialBegin | uartBegin | setTimeout =>
          exact settles.setupStep pc phase
      case loopHead | availHead =>
          exact settles.pollStep member pc
      case readHead | readTail | readIndex | readCell
          | readNext | readStore =>
          exact settles.readStep pc
      case translate | sendKey | print | write =>
          exact settles.sendStep member pc

/-- A handler can only move a bit toward its level. -/
theorem SettlesAt.handler
    {m : Machine}
    {fact : BitFact}
    (stable : fact.Stable)
    {action : Action}
    {result : Machine × List Event}
    (mask : m.MaskOk)
    (stepped : m.step? action = some result)
    (notMain : action ≠ .main)
    (settles : m.SettlesAt fact) :
    result.1.SettlesAt fact := by
  have frame := step?_frame stepped notMain
  rw [SettlesAt, frame.pc]
  rcases step?_bit mask stepped notMain stable.1 fact.b with
    same | ⟨isMask, isSeven, set⟩ | ⟨isControl, isUdrie, cleared⟩
  · rw [same]
    exact settles
  · rw [set, ← stable.2.1 isMask isSeven]
    exact finalBit_toward settles
  · rw [cleared, ← stable.2.2 isControl isUdrie]
    exact finalBit_toward settles

/-- What holds in every state reachable from reset. -/
structure Ready (m : Machine) : Prop where
  sreg : m.SregOk
  phase : m.Phase
  settles : ∀ fact ∈ loopFacts, m.SettlesAt fact
  udrie : m.pc.inSetup = true → m.SettlesAt udrieFact

theorem Reset.ready {m : Machine} (reset : m.Reset) : m.Ready where
  sreg := reset.sregOk
  phase := reset.phase
  settles fact member := by
    rw [SettlesAt, reset.atStart]
    exact finalBit_construct (List.mem_cons_of_mem _ member) _
  udrie _ := by
    rw [SettlesAt, reset.atStart]
    exact finalBit_construct List.mem_cons_self _

/-- Main never goes back from the loop to the setup code. -/
theorem mainStep_notSetup
    {m : Machine}
    {position : Pos}
    (pc : m.pc = .here position)
    (looping : (Pc.here position).inSetup = false) :
    m.mainStep.1.pc.inSetup = false := by
  rw [mainStep, pc]
  cases position <;> dsimp only
  case construct | init | serialBegin | uartBegin | setTimeout =>
      contradiction
  case loopHead | availHead =>
      rw [pollStep]
      split <;> rfl
  case readHead | readTail =>
      rw [readStep]
      split <;> rfl
  case readIndex | readCell | readNext | readStore | sendKey =>
      rfl
  case translate ret =>
      rw [sendStep]
      dsimp only
      split <;> rfl
  case print command buffer n =>
      cases buffer <;> cases command <;> rfl
  case write command rest n c position =>
      cases position
      case compareTail | testUdre | spin | spinSreg | spinUdre =>
          rw [sendStep, writeStep]
          · split <;> rfl
          · simp
      case fastUcsra loaded | slowUcsrb loaded =>
          cases loaded <;> rfl
      all_goals rfl

/-- Until main is in the loop, UDRIE stays on its course to being clear. -/
theorem Ready.udrie_mainStep
    {m : Machine}
    (ready : m.Ready)
    (setup : m.mainStep.1.pc.inSetup = true) :
    m.mainStep.1.SettlesAt udrieFact := by
  cases pc : m.pc with
  | code todo loaded continuation =>
      have inSetup : m.pc.inSetup = true := by
        rw [mainStep, pc] at setup
        rw [pc]
        cases todo with
        | nil =>
            exact setup
        | cons access rest =>
            cases access <;> cases loaded <;> exact setup
      have stepped := (ready.udrie inSetup).codeStep pc
        (ready.sreg.brackets pc).2 (by decide)
      rw [mainStep, pc]
      exact stepped
  | here position =>
      cases inSetup : (Pc.here position).inSetup with
      | false =>
          rw [mainStep_notSetup pc inSetup] at setup
          contradiction
      | true =>
          have phase := ready.phase
          rw [Phase, pc] at phase
          have stepped := (ready.udrie (by rw [pc, inSetup])).setupStep
            pc phase
          rw [mainStep, pc]
          cases position <;> first | exact stepped | contradiction

/-- Every step of the system keeps the receiver ready. -/
theorem Ready.step?
    {m : Machine}
    {action : Action}
    {result : Machine × List Event}
    (ready : m.Ready)
    (stepped : m.step? action = some result) :
    result.1.Ready := by
  by_cases isMain : action = .main
  · subst isMain
    cases stepped
    exact ⟨ready.sreg.mainStep, ready.phase.mainStep,
      fun fact member =>
        (ready.settles fact member).mainStep member ready.sreg ready.phase,
      ready.udrie_mainStep⟩
  · have mask := ready.phase.maskOk
    refine ⟨ready.sreg.step? stepped, ready.phase.step? stepped,
      fun fact member => ?_, fun setup => ?_⟩
    · exact (ready.settles fact member).handler
        (stable_facts (List.mem_cons_of_mem _ member)) mask stepped isMain
    · rw [(step?_frame stepped isMain).pc] at setup
      exact (ready.udrie setup).handler
        (stable_facts List.mem_cons_self) mask stepped isMain

/-- Every state reachable from reset is ready. -/
theorem Reset.run?_ready
    {start final : Machine}
    {actions : List Action}
    {events : List Event}
    (reset : start.Reset)
    (ran : run? start actions = some (final, events)) :
    final.Ready :=
  LabelledRun.run?_invariant Ready
    (fun ready stepped => ready.step? stepped) reset.ready ran

/-! ## After `uart.begin` -/

/-- LED code leaves the bits of the serial side at their level throughout. -/
theorem startedBit_confined
    {allowed : Reg → BitVec 8}
    {io : IoFile}
    {todo : List Access}
    {loaded : Option Byte}
    (code : ConfinedCode allowed io todo loaded)
    {reg : Reg}
    {b : Nat}
    (inside : b < 8)
    (other : (allowed reg).getLsbD b = false) :
    startedBit reg b (io.bit reg b) todo loaded = io.bit reg b := by
  cases loaded with
  | none =>
      rw [startedBit_none]
      exact codeBit_confined code.confined inside other _
  | some value =>
      obtain ⟨target, keep, set, rest, rfl, current⟩ :=
        code.current value rfl
      have later := codeBit_confined
        (fun access member => code.confined access
          (List.mem_cons_of_mem _ member)) inside other
      rw [startedBit, later]
      split
      next same =>
        subst same
        obtain ⟨keeps, sets⟩ := confined_modify_bit
          (code.confined _ List.mem_cons_self) inside other
        rw [keeps, sets, Bool.and_true, Bool.or_false, ← current,
          IoFile.bit]
      next =>
        rfl

/-- After `uart.begin` the bits of the serial side are at their level. -/
theorem Ready.receiverBit
    {m : Machine}
    (ready : m.Ready)
    (returned : m.pc.returned = true)
    (notOff : ¬ m.InterruptsOff)
    {fact : BitFact}
    (member : fact ∈ receiverFacts) :
    m.io.bit fact.reg fact.b = fact.level := by
  have settles := ready.settles fact (List.mem_append_left _ member)
  have inLed := ledBits_receiver (List.mem_cons_of_mem udrieFact member)
  have phase := ready.phase
  cases pc : m.pc with
  | code todo loaded continuation =>
      rw [pc, Pc.returned, Bool.and_eq_true] at returned
      rw [Phase, pc] at phase
      have blinking : m.Blinking todo loaded := by
        cases continuation <;>
          first
            | exact phase
            | exact absurd returned.1 (by decide)
            | exact absurd returned.2 (by decide)
      have done := Pos.remaining_eq_nil returned.1 (by simpa using returned.2)
      rw [SettlesAt, pc, finalBit, done, codeBit_nil,
        startedBit_confined blinking.code inLed.1 inLed.2] at settles
      exact settles
  | here position =>
      have outside : position.mode = .outside ∨ position.mode = .saved := by
        rw [InterruptsOff, pc, Pc.mode] at notOff
        cases mode : position.mode with
        | outside => exact .inl rfl
        | saved => exact .inr rfl
        | off => exact (notOff mode).elim
      have noLoad :
          finalBit fact.reg fact.b (m.io.bit fact.reg fact.b)
              (.here position) =
            codeBit fact.reg fact.b position.remaining
              (m.io.bit fact.reg fact.b) := by
        rw [finalBit]
        rintro command rest n c loaded rfl
        rcases outside with mode | mode <;> contradiction
      rw [SettlesAt, pc, noLoad] at settles
      rw [pc, Pc.returned] at returned
      by_cases atSetTimeout : position = .setTimeout
      · have announced : Pos.remaining .setTimeout = ledSetup := rfl
        rwa [atSetTimeout, announced, codeBit_ledSetup_receiver
          (List.mem_cons_of_mem _ member)] at settles
      · rwa [Pos.remaining_eq_nil returned atSetTimeout,
          codeBit_nil] at settles

/-- Everything reception and transmission need is in place. -/
structure ReceiverUp (m : Machine) : Prop where
  flag : m.sregI = true
  active : m.activeObject = some .uart
  pinChange : m.pinChangeEnabled = true
  /-- pin 7 is an input with its pull-up on -/
  rxPin : m.io.bit .ddrD 7 = false ∧ m.io.bit .portD 7 = true
  /-- pin 8 is an output and idles high -/
  txPin : m.io.bit .ddrB 0 = true ∧ m.io.bit .portB 0 = true
  transmitter : m.io.bit .ucsr0b txen0 = true

/-- After `uart.begin`, main's object listens. -/
theorem Ready.active
    {m : Machine}
    (ready : m.Ready)
    (returned : m.pc.returned = true) :
    m.Listening := by
  have phase := ready.phase
  rw [Phase] at phase
  split at phase
  next todo loaded continuation pc =>
    rw [pc, Pc.returned, Bool.and_eq_true] at returned
    cases continuation <;>
      first
        | exact phase.listening
        | exact absurd returned.1 (by decide)
        | exact absurd returned.2 (by decide)
  next position pc =>
    rw [pc, Pc.returned] at returned
    cases position <;> first | exact phase | contradiction

theorem Ready.receiverUp
    {m : Machine}
    (ready : m.Ready)
    (returned : m.pc.returned = true)
    (notOff : ¬ m.InterruptsOff) :
    m.ReceiverUp := by
  have started : m.pc.afterSei = true := by
    cases pc : m.pc with
    | code todo loaded continuation =>
        rw [pc] at returned
        cases continuation <;> first | rfl | contradiction
    | here position =>
        rw [pc] at returned
        cases position <;> first | rfl | contradiction
  have bits : ∀ fact ∈ receiverFacts,
      m.io.bit fact.reg fact.b = fact.level :=
    fun fact member => ready.receiverBit returned notOff member
  simp only [receiverFacts, List.forall_mem_cons] at bits
  obtain ⟨group, mask, rxMode, rxPull, txMode, txHigh, txen, _⟩ := bits
  exact ⟨ready.sreg.enabled started notOff,
    (ready.active returned).active,
    by rw [pinChangeEnabled, group, mask]; rfl,
    ⟨rxMode, rxPull⟩, ⟨txMode, txHigh⟩, txen⟩

/-- Both LED outputs are low. -/
def LedsLow (m : Machine) : Prop :=
  m.io.bit .portB 5 = false ∧ m.io.bit .portD 2 = false

theorem Ready.ledsLow
    {m : Machine}
    (ready : m.Ready)
    (atLoopHead : m.pc = .here .loopHead) :
    m.LedsLow := by
  have bits : ∀ fact ∈ ledFacts,
      m.io.bit fact.reg fact.b = fact.level :=
    fun fact member =>
      (settlesAt_iff atLoopHead rfl rfl).mp
        (ready.settles fact (List.mem_append_right _ member))
  simp only [ledFacts, List.forall_mem_cons] at bits
  exact ⟨bits.1, bits.2.1⟩

/--
In every run from reset, once `uart.begin` has returned the receiver is up
outside interrupt-disabled sections; a call on an LED pin, entered in any state
of the run, leaves every other port and direction bit alone while it runs; and
both LEDs are low at every loop head.
-/
theorem receiver_never_deaf
    {start m : Machine}
    {actions : List Action}
    {events : List Event}
    (reset : start.Reset)
    (ran : run? start actions = some (m, events)) :
    (m.pc.returned = true → ¬ m.InterruptsOff → m.ReceiverUp) ∧
      (∀ (pin : Pin) (call rest : List Access) (continuation : Pos)
          (during : List Action) (last : Machine) (seen : List Event),
        isLedPin pin →
        LedCall pin call →
        run? { m with pc := .code (call ++ rest) none continuation }
          during = some (last, seen) →
        during.count .main ≤ codeLength call none →
          SameOutside (pinBits pin) m.io last.io) ∧
      (m.pc = .here .loopHead → m.LedsLow) := by
  have ready := reset.run?_ready ran
  refine ⟨ready.receiverUp, ?_, ready.ledsLow⟩
  intro pin call rest continuation during last seen led isCall
    continued within
  exact @run?_confined
    { m with pc := .code (call ++ rest) none continuation }
    _ _ call rest none continuation _ _ ready.phase.maskOk rfl
    ⟨confined_ledCall led isCall, by simp [LoadedCurrent]⟩ continued within

/-- From power-on main alone gets to the return of `uart.begin`. -/
theorem receiver_never_deaf_powerOn :
    (powerOn.mainSteps 81).ReceiverUp := by
  obtain ⟨events, ran⟩ := run?_mainSteps 81 powerOn
  exact (receiver_never_deaf powerOn_reset ran).1
    (by decide +kernel) (by decide +kernel)

end Machine

end KeyboardEmulator
