import KeyboardEmulator.HandlerFrame

namespace KeyboardEmulator

open BootKeyboard (Byte)

/-!
# The global interrupt flag

Every section that turns interrupts off saves the flag before and restores it
after.  The first access to `SREG` that remaining code makes tells which part
of such a section it is in, and so what the flag and the saved copy hold.
-/

/-- Where code stands with respect to a section that saves and restores SREG. -/
inductive SregMode where
  /-- outside every section -/
  | outside
  /-- the flag is saved, `cli` comes next -/
  | saved
  /-- interrupts are off until the flag is restored -/
  | off
  deriving Repr, DecidableEq

/-- The mode at the start of remaining straight-line code. -/
def sregMode : List Access → SregMode
  | [] => .outside
  | .saveSreg :: _ => .outside
  | .cli :: _ => .saved
  | .restoreSreg :: _ => .off
  | .assign _ _ :: rest => sregMode rest
  | .modify _ _ _ :: rest => sregMode rest
  | .clearOverflow :: rest => sregMode rest
  | .resetTail :: rest => sregMode rest
  | .resetHead :: rest => sregMode rest
  | .setActive _ :: rest => sregMode rest
  | .setPcintMask _ _ :: rest => sregMode rest

/-- Save, `cli` and restore follow one another in this order only. -/
def WellBracketed : List Access → Prop
  | [] => True
  | .saveSreg :: rest => sregMode rest = .saved ∧ WellBracketed rest
  | .cli :: rest => sregMode rest = .off ∧ WellBracketed rest
  | .restoreSreg :: rest => sregMode rest = .outside ∧ WellBracketed rest
  | .assign _ _ :: rest => WellBracketed rest
  | .modify _ _ _ :: rest => WellBracketed rest
  | .clearOverflow :: rest => WellBracketed rest
  | .resetTail :: rest => WellBracketed rest
  | .resetHead :: rest => WellBracketed rest
  | .setActive _ :: rest => WellBracketed rest
  | .setPcintMask _ _ :: rest => WellBracketed rest

instance decidableWellBracketed :
    (todo : List Access) → Decidable (WellBracketed todo)
  | [] => .isTrue trivial
  | .saveSreg :: rest =>
      have := decidableWellBracketed rest
      inferInstanceAs
        (Decidable (sregMode rest = .saved ∧ WellBracketed rest))
  | .cli :: rest =>
      have := decidableWellBracketed rest
      inferInstanceAs
        (Decidable (sregMode rest = .off ∧ WellBracketed rest))
  | .restoreSreg :: rest =>
      have := decidableWellBracketed rest
      inferInstanceAs
        (Decidable (sregMode rest = .outside ∧ WellBracketed rest))
  | .assign _ _ :: rest => decidableWellBracketed rest
  | .modify _ _ _ :: rest => decidableWellBracketed rest
  | .clearOverflow :: rest => decidableWellBracketed rest
  | .resetTail :: rest => decidableWellBracketed rest
  | .resetHead :: rest => decidableWellBracketed rest
  | .setActive _ :: rest => decidableWellBracketed rest
  | .setPcintMask _ _ :: rest => decidableWellBracketed rest

/-- Complete code: every section it opens it also closes. -/
def Balanced (todo : List Access) : Prop :=
  WellBracketed todo ∧ sregMode todo = .outside

instance (todo : List Access) : Decidable (Balanced todo) :=
  inferInstanceAs (Decidable (_ ∧ _))

/-- What follows complete code does not change the mode of what precedes. -/
theorem sregMode_append
    (first : List Access)
    {second : List Access}
    (complete : sregMode second = .outside) :
    sregMode (first ++ second) = sregMode first := by
  induction first with
  | nil =>
      exact complete
  | cons access rest inductionHypothesis =>
      cases access <;> simp [sregMode, inductionHypothesis]

/-- Complete pieces of code compose. -/
theorem Balanced.append
    {first second : List Access}
    (firstBalanced : Balanced first)
    (secondBalanced : Balanced second) :
    Balanced (first ++ second) := by
  obtain ⟨firstBrackets, firstOutside⟩ := firstBalanced
  obtain ⟨secondBrackets, secondOutside⟩ := secondBalanced
  have sameMode :=
    fun todo => sregMode_append todo secondOutside
  refine ⟨?_, (sameMode first).trans firstOutside⟩
  clear firstOutside
  induction first with
  | nil =>
      exact secondBrackets
  | cons access rest inductionHypothesis =>
      cases access <;>
        simp_all [WellBracketed]

theorem Balanced.flatMap
    {pieces : List α}
    {piece : α → List Access}
    (each : ∀ item, Balanced (piece item)) :
    Balanced (pieces.flatMap piece) := by
  induction pieces with
  | nil =>
      exact ⟨trivial, rfl⟩
  | cons item rest inductionHypothesis =>
      rw [List.flatMap_cons]
      exact (each item).append inductionHypothesis

theorem balanced_digitalWrite (pin : Pin) (val : BitVec 8) :
    Balanced (digitalWrite pin val) := by
  by_cases isLow : val = low
  · subst isLow
    revert pin
    decide
  · simp only [digitalWrite, if_neg isLow]
    revert pin
    decide

theorem balanced_blinkLed (cycles : BitVec 32) (pin : Pin) :
    Balanced (blinkLed cycles pin) :=
  (Balanced.flatMap (fun _ => balanced_digitalWrite pin high)).append
    (Balanced.flatMap (fun _ => balanced_digitalWrite pin low))

theorem balanced_ledSetup : Balanced Machine.ledSetup := by
  have pins :
      Balanced
        (pinMode 13 output ++ pinMode 2 output ++
          digitalWrite 13 low ++ digitalWrite 2 low) := by
    decide
  exact (pins.append (balanced_blinkLed 100000 13)).append
    (balanced_blinkLed 100000 2)

theorem balanced_constructCode : Balanced constructCode := by
  decide

theorem balanced_initCode : Balanced initCode := by
  decide

theorem balanced_serialBeginCode : Balanced serialBeginCode := by
  decide

theorem balanced_uartBeginCode
    (object : SoftwareSerial)
    (activeObject : Option SerialObject) :
    Balanced (object.beginCode activeObject) := by
  simp only [SoftwareSerial.beginCode, SoftwareSerial.listen]
  split
  · exact ⟨trivial, rfl⟩
  · split
    · split <;> exact ⟨trivial, rfl⟩
    · exact ⟨trivial, rfl⟩

/-! ## The mode of a position -/

/-- The two `ATOMIC_BLOCK`s of `write`. -/
def WriteAt.mode : WriteAt → SregMode
  | .fastCli | .slowCli _ =>
      .saved
  | .fastUdr | .fastUcsra _ | .fastRestore
  | .slowHead _ | .slowUcsrb _ | .slowRestore =>
      .off
  | _ =>
      .outside

def Pos.mode : Pos → SregMode
  | .write _ _ _ _ position => position.mode
  | _ => .outside

def Pc.mode : Pc → SregMode
  | .code todo _ _ => sregMode todo
  | .here position => position.mode

/-- Whether `init` has turned interrupts on by this position. -/
def Pos.afterSei : Pos → Bool
  | .construct | .init => false
  | _ => true

def Pc.afterSei : Pc → Bool
  | .code _ _ continuation => continuation.afterSei
  | .here position => position.afterSei

namespace Machine

/-- Main is between a `cli()` and the restoring write to SREG. -/
def InterruptsOff (m : Machine) : Prop :=
  m.pc.mode = .off

instance (m : Machine) : Decidable m.InterruptsOff :=
  inferInstanceAs (Decidable (m.pc.mode = .off))

/-- The flag and the saved copy agree with main's position. -/
structure SregOk (m : Machine) : Prop where
  brackets :
    ∀ {todo : List Access} {loaded : Option Byte} {continuation : Pos},
      m.pc = .code todo loaded continuation →
        WellBracketed todo ∧ continuation.mode = .outside
  outside : m.pc.mode = .outside → m.sregI = m.pc.afterSei
  saved :
    m.pc.mode = .saved →
      m.sregI = m.pc.afterSei ∧ m.oldSreg = m.pc.afterSei
  off :
    m.pc.mode = .off →
      m.sregI = false ∧ m.oldSreg = m.pc.afterSei

/-- After `init` the flag is set unless main is in a section. -/
theorem SregOk.enabled
    {m : Machine}
    (ok : m.SregOk)
    (started : m.pc.afterSei = true)
    (notOff : ¬ m.InterruptsOff) :
    m.sregI = true := by
  cases mode : m.pc.mode with
  | outside =>
      rw [ok.outside mode, started]
  | saved =>
      rw [(ok.saved mode).1, started]
  | off =>
      exact (notOff mode).elim

/-- A set flag means that main is not in a section. -/
theorem SregOk.not_off
    {m : Machine}
    (ok : m.SregOk)
    (enabled : m.sregI = true) :
    ¬ m.InterruptsOff := by
  intro off
  rw [(ok.off off).1] at enabled
  contradiction

/-- Only main's position, the flag and the saved copy matter. -/
theorem SregOk.congr
    {before after : Machine}
    (ok : before.SregOk)
    (frame : HandlerFrame before after) :
    after.SregOk where
  brackets shape := ok.brackets (frame.pc ▸ shape)
  outside := by
    rw [frame.pc, frame.sregI]
    exact ok.outside
  saved := by
    rw [frame.pc, frame.sregI, frame.oldSreg]
    exact ok.saved
  off := by
    rw [frame.pc, frame.sregI, frame.oldSreg]
    exact ok.off

/-- Outside every section only the flag matters. -/
theorem SregOk.of_here
    {m : Machine}
    {position : Pos}
    (pc : m.pc = .here position)
    (mode : position.mode = .outside)
    (flag : m.sregI = position.afterSei) :
    m.SregOk where
  brackets shape := by
    rw [pc] at shape
    contradiction
  outside _ := by
    rw [flag, pc, Pc.afterSei]
  saved isSaved := by
    rw [pc, Pc.mode, mode] at isSaved
    contradiction
  off isOff := by
    rw [pc, Pc.mode, mode] at isOff
    contradiction

/-- Between saving the flag and `cli` in `write`. -/
theorem SregOk.of_saved
    {m : Machine}
    {position : Pos}
    (pc : m.pc = .here position)
    (mode : position.mode = .saved)
    (flags :
      m.sregI = position.afterSei ∧ m.oldSreg = position.afterSei) :
    m.SregOk where
  brackets shape := by
    rw [pc] at shape
    contradiction
  outside isOutside := by
    rw [pc, Pc.mode, mode] at isOutside
    contradiction
  saved _ := by
    rw [pc]
    exact flags
  off isOff := by
    rw [pc, Pc.mode, mode] at isOff
    contradiction

/-- Inside a section of `write`. -/
theorem SregOk.of_off
    {m : Machine}
    {position : Pos}
    (pc : m.pc = .here position)
    (mode : position.mode = .off)
    (flags : m.sregI = false ∧ m.oldSreg = position.afterSei) :
    m.SregOk where
  brackets shape := by
    rw [pc] at shape
    contradiction
  outside isOutside := by
    rw [pc, Pc.mode, mode] at isOutside
    contradiction
  saved isSaved := by
    rw [pc, Pc.mode, mode] at isSaved
    contradiction
  off _ := by
    rw [pc]
    exact flags

/-- In straight-line code the remaining accesses decide. -/
theorem SregOk.of_code
    {m : Machine}
    {todo : List Access}
    {loaded : Option Byte}
    {continuation : Pos}
    (pc : m.pc = .code todo loaded continuation)
    (brackets : WellBracketed todo)
    (resumes : continuation.mode = .outside)
    (outside :
      sregMode todo = .outside → m.sregI = continuation.afterSei)
    (saved :
      sregMode todo = .saved →
        m.sregI = continuation.afterSei ∧
          m.oldSreg = continuation.afterSei)
    (off :
      sregMode todo = .off →
        m.sregI = false ∧ m.oldSreg = continuation.afterSei) :
    m.SregOk where
  brackets shape := by
    rw [pc] at shape
    cases shape
    exact ⟨brackets, resumes⟩
  outside := by
    rw [pc]
    exact outside
  saved := by
    rw [pc]
    exact saved
  off := by
    rw [pc]
    exact off

/-- Entering complete code, only the flag matters. -/
theorem SregOk.of_balanced
    {m : Machine}
    {todo : List Access}
    {loaded : Option Byte}
    {continuation : Pos}
    (pc : m.pc = .code todo loaded continuation)
    (balanced : Balanced todo)
    (resumes : continuation.mode = .outside)
    (flag : m.sregI = continuation.afterSei) :
    m.SregOk :=
  .of_code pc balanced.1 resumes (fun _ => flag)
    (fun isSaved => by
      rw [balanced.2] at isSaved
      contradiction)
    (fun isOff => by
      rw [balanced.2] at isOff
      contradiction)

/-- One access of straight-line code keeps the flag in step with the code. -/
theorem SregOk.codeStep
    {m : Machine}
    {todo : List Access}
    {loaded : Option Byte}
    {continuation : Pos}
    (pc : m.pc = .code todo loaded continuation)
    (ok : m.SregOk) :
    (m.codeStep todo loaded continuation).SregOk := by
  obtain ⟨brackets, resumes⟩ := ok.brackets pc
  have outside := ok.outside
  have saved := ok.saved
  have off := ok.off
  rw [pc] at outside saved off
  cases todo with
  | nil =>
      exact .of_here rfl resumes (outside rfl)
  | cons access rest =>
      cases access with
      | saveSreg =>
          have flag := outside rfl
          exact .of_code rfl brackets.2 resumes
            (fun isOutside => by
              rw [brackets.1] at isOutside
              contradiction)
            (fun _ => ⟨flag, flag⟩)
            (fun isOff => by
              rw [brackets.1] at isOff
              contradiction)
      | cli =>
          have flags := saved rfl
          exact .of_code rfl brackets.2 resumes
            (fun isOutside => by
              rw [brackets.1] at isOutside
              contradiction)
            (fun isSaved => by
              rw [brackets.1] at isSaved
              contradiction)
            (fun _ => ⟨rfl, flags.2⟩)
      | restoreSreg =>
          have flags := off rfl
          exact .of_code rfl brackets.2 resumes
            (fun _ => flags.2)
            (fun isSaved => by
              rw [brackets.1] at isSaved
              contradiction)
            (fun isOff => by
              rw [brackets.1] at isOff
              contradiction)
      | modify reg keep set =>
          cases loaded <;>
            exact .of_code rfl brackets resumes outside saved off
      | _ =>
          exact .of_code rfl brackets resumes outside saved off

/-- The setup calls start complete code; `init` turns interrupts on. -/
theorem SregOk.setupStep
    {m : Machine}
    {position : Pos}
    (pc : m.pc = .here position)
    (flag : m.sregI = position.afterSei)
    (ok : m.SregOk) :
    (m.setupStep position).SregOk := by
  cases position with
  | construct =>
      exact .of_balanced rfl balanced_constructCode rfl flag
  | init =>
      exact .of_balanced rfl balanced_initCode rfl rfl
  | serialBegin =>
      exact .of_balanced rfl balanced_serialBeginCode rfl flag
  | uartBegin =>
      exact .of_balanced rfl (balanced_uartBeginCode _ _) rfl flag
  | setTimeout =>
      exact .of_balanced rfl balanced_ledSetup rfl flag
  | _ =>
      exact ok

/-- Polling and reading never touch the flag. -/
theorem SregOk.pollStep
    {m : Machine}
    {position : Pos}
    (flag : m.sregI = true)
    (ok : m.SregOk) :
    (m.pollStep position).SregOk := by
  cases position with
  | loopHead =>
      rw [Machine.pollStep]
      split <;> exact .of_here rfl rfl flag
  | availHead tail =>
      rw [Machine.pollStep]
      split
      · exact .of_balanced rfl (balanced_blinkLed 1000 13) rfl flag
      · exact .of_here rfl rfl flag
  | _ =>
      exact ok

theorem SregOk.readStep
    {m : Machine}
    {position : Pos}
    (flag : m.sregI = true)
    (ok : m.SregOk) :
    (m.readStep position).1.SregOk := by
  cases position with
  | readHead | readTail head =>
      rw [Machine.readStep]
      split <;> exact .of_here rfl rfl flag
  | readIndex | readCell index | readNext d | readStore d head =>
      exact .of_here rfl rfl flag
  | _ =>
      exact ok

/-- The two sections of `write` save, clear and restore the flag in order. -/
theorem SregOk.writeStep
    {m : Machine}
    {command : Command}
    {rest : List Byte}
    {n : Nat}
    {c : Byte}
    {position : WriteAt}
    (pc : m.pc = .here (.write command rest n c position))
    (ok : m.SregOk) :
    (m.writeStep (.write command rest n c) c position).1.SregOk := by
  have outside := ok.outside
  have saved := ok.saved
  have off := ok.off
  rw [pc] at outside saved off
  cases position with
  | compareHead | nextIndex | cellIndex i | cell i head =>
      exact .of_here rfl rfl (outside rfl)
  | compareTail head | testUdre | spin i | spinSreg i | spinUdre i =>
      rw [Machine.writeStep]
      split <;> exact .of_here rfl rfl (outside rfl)
  | fastSave | slowSave i =>
      exact .of_saved rfl rfl ⟨outside rfl, outside rfl⟩
  | fastCli | slowCli i =>
      exact .of_off rfl rfl ⟨rfl, (saved rfl).2⟩
  | fastUdr | slowHead i =>
      exact .of_off rfl rfl (off rfl)
  | fastUcsra loaded | slowUcsrb loaded =>
      cases loaded <;> exact .of_off rfl rfl (off rfl)
  | fastRestore | slowRestore =>
      exact .of_here rfl rfl (off rfl).2
  | ret =>
      exact ok

theorem SregOk.sendStep
    {m : Machine}
    {position : Pos}
    (pc : m.pc = .here position)
    (ok : m.SregOk) :
    (m.sendStep position).1.SregOk := by
  have outside := ok.outside
  rw [pc] at outside
  cases position with
  | translate ret =>
      simp only [Machine.sendStep]
      cases translated :
          (translateInput (BitVec.ofInt 8 ret) m.keyboardBuffer).1 with
      | true =>
          have sends :
              (if true = true then
                  Pc.code (blinkLed 1000 2) none .sendKey
                else .here .loopHead) =
                .code (blinkLed 1000 2) none .sendKey := rfl
          exact .of_balanced sends (balanced_blinkLed 1000 2) rfl
            (outside rfl)
      | false =>
          have returns :
              (if false = true then
                  Pc.code (blinkLed 1000 2) none .sendKey
                else .here .loopHead) =
                .here .loopHead := rfl
          exact .of_here returns rfl (outside rfl)
  | sendKey =>
      exact .of_here rfl rfl (outside rfl)
  | print command buffer n =>
      cases buffer <;> cases command <;>
        exact .of_here rfl rfl (outside rfl)
  | write command rest n c position =>
      by_cases returned : position = .ret
      · subst returned
        exact .of_here rfl rfl (outside rfl)
      · rw [Machine.sendStep]
        · exact .writeStep pc ok
        · exact returned
  | _ =>
      exact ok

/-- Main keeps the flag in step with its position. -/
theorem SregOk.mainStep
    {m : Machine}
    (ok : m.SregOk) :
    m.mainStep.1.SregOk := by
  have outside := ok.outside
  rw [Machine.mainStep]
  cases pc : m.pc with
  | code todo loaded continuation =>
      exact ok.codeStep pc
  | here position =>
      rw [pc] at outside
      cases position <;> dsimp only
      case construct | init | serialBegin | uartBegin | setTimeout =>
          exact .setupStep pc (outside rfl) ok
      case loopHead | availHead =>
          exact .pollStep (outside rfl) ok
      case readHead | readTail | readIndex | readCell
          | readNext | readStore =>
          exact .readStep (outside rfl) ok
      case translate | sendKey | print | write =>
          exact .sendStep pc ok

/-- Every step of the system keeps the flag in step with main's position. -/
theorem SregOk.step?
    {m : Machine}
    {action : Action}
    {result : Machine × List Event}
    (ok : m.SregOk)
    (stepped : m.step? action = some result) :
    result.1.SregOk := by
  by_cases isMain : action = .main
  · subst isMain
    cases stepped
    exact ok.mainStep
  · exact ok.congr (step?_frame stepped isMain)

theorem Reset.sregOk {m : Machine} (reset : m.Reset) : m.SregOk :=
  .of_here reset.atStart rfl reset.interruptsOff

end Machine

end KeyboardEmulator
