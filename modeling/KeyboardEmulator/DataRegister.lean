import KeyboardEmulator.RelayRefinement

namespace KeyboardEmulator

open BootKeyboard (Byte)
open RingBuffer (Ring next)

/-!
# The transmit data register

Main's direct path and the transmit handler both write to UDR0.  Either does so
only while the register is empty, so the transmitter takes every byte before
the next one is written.
-/

/-- The transmitter takes a byte out of UDR0. -/
def Action.takes : Action → Bool
  | .shiftOut => true
  | _ => false

/-- The buffered path of `write`. -/
def WriteAt.buffered : WriteAt → Bool
  | .nextIndex | .spin _ | .spinSreg _ | .spinUdre _ | .cellIndex _
  | .cell _ _ | .slowSave _ | .slowCli _ | .slowHead _ | .slowUcsrb _
  | .slowRestore => true
  | _ => false

def Pos.buffered : Pos → Bool
  | .write _ _ _ _ position => position.buffered
  | _ => false

def Pc.buffered : Pc → Bool
  | .code _ _ _ => false
  | .here position => position.buffered

/-- Bytes written to UDR0. -/
def sentCount (events : List Event) : Nat :=
  (events.filterMap Event.udr?).length

theorem sentCount_append (first second : List Event) :
    sentCount (first ++ second) = sentCount first + sentCount second := by
  simp [sentCount]

namespace Machine

/-- Bytes in UDR0. -/
def held (m : Machine) : Nat :=
  if m.udre then 0 else 1

/-- What a step of main shows, and what it does to the data register. -/
inductive MainEffect (m : Machine) (result : Machine × List Event) : Prop where
  | silent
      (udre : result.1.udre = m.udre)
      (events : result.2 = [])
  | consumes
      (b : Byte)
      (udre : result.1.udre = m.udre)
      (events : result.2 = [.consumed b])
  | translates
      (ret : Int)
      (udre : result.1.udre = m.udre)
      (events : result.2 = [.translated ret])
  | sends
      (c : Byte)
      (empty : m.udre = true)
      (full : result.1.udre = false)
      (events : result.2 = [.udr c])

/-- One case for each position of main. -/
theorem RelayOk.mainEffect
    {m : Machine}
    (ok : m.RelayOk) :
    MainEffect m m.mainStep := by
  have target := ok.position
  rw [mainStep]
  cases pc : m.pc with
  | code todo loaded continuation =>
      have same : SameRelay m (m.codeStep todo loaded continuation) :=
        codeStep_sameRelay (ok.confinedCode pc).confined continuation
      exact .silent same.udre rfl
  | here position =>
      rw [PcOk, pc] at target
      cases position <;> dsimp only
      case construct | init | serialBegin | uartBegin =>
          exact target.elim
      case setTimeout | readIndex | readCell | readNext | sendKey =>
          exact .silent rfl rfl
      case loopHead | availHead =>
          rw [pollStep]
          split <;> exact .silent rfl rfl
      case readHead | readTail =>
          rw [readStep]
          split <;> exact .silent rfl rfl
      case readStore d head =>
          exact .consumes d rfl rfl
      case translate ret =>
          exact .translates ret rfl rfl
      case print command buffer n =>
          cases buffer <;> cases command <;> exact .silent rfl rfl
      case write command rest n c position =>
          cases position with
          | compareTail head | testUdre | spin i | spinSreg i =>
              simp only [sendStep, writeStep]
              split <;> exact .silent rfl rfl
          | spinUdre i =>
              exact target.elim
          | fastUdr =>
              exact .sends c target.2
                (IoFile.bit_force_same _ _ (by decide) _) rfl
          | fastUcsra loaded =>
              cases loaded with
              | none =>
                  exact .silent rfl rfl
              | some ucsra =>
                  exact .silent (IoFile.bit_store_udre _ _ _) rfl
          | slowUcsrb loaded =>
              cases loaded with
              | none =>
                  exact .silent rfl rfl
              | some ucsrb =>
                  exact .silent
                    (IoFile.bit_store_other _ (by decide) _ _) rfl
          | _ =>
              exact .silent rfl rfl

/-- Main itself neither stores nor drops a received byte. -/
theorem MainEffect.noReception
    {m : Machine}
    {result : Machine × List Event}
    (effect : MainEffect m result) :
    result.2.filterMap Event.stored? = [] ∧
      result.2.filterMap Event.dropped? = [] := by
  cases effect with
  | silent _ events | consumes _ _ events | translates _ _ events
  | sends _ _ _ events =>
      rw [events]
      exact ⟨rfl, rfl⟩

/-- Main never empties the data register. -/
theorem MainEffect.udre_before
    {m : Machine}
    {result : Machine × List Event}
    (effect : MainEffect m result)
    (empty : result.1.udre = true) :
    m.udre = true := by
  cases effect with
  | silent udre | consumes _ udre | translates _ udre =>
      rw [← udre, empty]
  | sends _ wasEmpty =>
      exact wasEmpty

/-- The transmit handler leaves a full data register. -/
theorem udre_txUdrEmptyIrq (m : Machine) :
    m.txUdrEmptyIrq.1.udre = false := by
  have forced :
      (m.io.force .ucsr0a udre0 false).bit .ucsr0a udre0 = false :=
    IoFile.bit_force_same _ _ (by decide) _
  simp only [Machine.udre, txUdrEmptyIrq]
  split
  · rw [IoFile.bit_store_other _ (by decide), IoFile.bit_store_udre, forced]
  · rw [IoFile.bit_store_udre, forced]

/-- A step of the system as the data register sees it. -/
structure RegisterStep
    (m : Machine)
    (action : Action)
    (result : Machine × List Event) : Prop where
  /-- a byte is written only while the register is empty -/
  fits : sentCount result.2 + m.held ≤ 1
  kept :
    sentCount result.2 + m.held =
      result.1.held + (if action.takes then 1 else 0)

/-- A step that leaves the register alone. -/
theorem RegisterStep.untouched
    {m : Machine}
    {action : Action}
    {result : Machine × List Event}
    (udre : result.1.udre = m.udre)
    (noSent : sentCount result.2 = 0)
    (noTake : action.takes = false) :
    RegisterStep m action result := by
  have atMost : m.held ≤ 1 := by
    rw [held]
    split <;> omega
  have same : result.1.held = m.held := by rw [held, held, udre]
  refine ⟨by omega, ?_⟩
  rw [noSent, noTake, same]
  exact Nat.zero_add _

/-- A byte is written to the empty register. -/
theorem RegisterStep.fills
    {m : Machine}
    {action : Action}
    {result : Machine × List Event}
    (empty : m.udre = true)
    (full : result.1.udre = false)
    (sent : sentCount result.2 = 1)
    (noTake : action.takes = false) :
    RegisterStep m action result := by
  have before : m.held = 0 := by rw [held, empty]; rfl
  have after : result.1.held = 1 := by rw [held, full]; rfl
  refine ⟨by omega, ?_⟩
  rw [sent, before, after, noTake]
  rfl

theorem RelayOk.registerStep
    {m : Machine}
    {action : Action}
    {result : Machine × List Event}
    (ok : m.RelayOk)
    (stepped : m.step? action = some result) :
    RegisterStep m action result := by
  cases step?_inversion stepped with
  | main =>
      cases ok.mainEffect with
      | silent udre events | consumes _ udre events
      | translates _ udre events =>
          exact .untouched udre (by rw [events]; rfl) rfl
      | sends c empty full events =>
          exact .fills empty full (by rw [events]; rfl) rfl
  | pinChange _ _ startLevel samples =>
      have kept := reception_kept (ok.ready.active ok.returned) startLevel
        samples
      have outcome := reception (ok.ready.active ok.returned) startLevel
        samples
      refine .untouched kept.udre ?_ rfl
      cases outcome with
      | idle _ _ events | store _ _ _ events | drop _ _ _ events =>
          rw [events]
          rfl
  | dataRegisterEmpty _ _ udre =>
      exact .fills udre (udre_txUdrEmptyIrq _) rfl rfl
  | usartReceive _ _ c parityError =>
      obtain ⟨after, reached, kept, _⟩ := usartReceive_kept m c parityError
      rw [reached]
      exact .untouched kept.udre rfl rfl
  | shiftOut full =>
      have before : m.held = 1 := by
        rw [held, show m.udre = false from full]
        rfl
      have after :
          Machine.held { m with io := m.io.force .ucsr0a udre0 true } = 0 :=
        if_pos (IoFile.bit_force_same _ _ (by decide) _)
      exact ⟨by rw [before]; rfl, by rw [before, after]; rfl⟩

/-- An empty data register means that nothing is queued or being queued. -/
def Prompt (m : Machine) : Prop :=
  m.udre = true → m.tx.Empty ∧ m.pc.buffered = false

/-- With an empty ring and data register `write` takes the direct path. -/
theorem Prompt.writeStep
    {m : Machine}
    {command : Command}
    {rest : List Byte}
    {n : Nat}
    {c : Byte}
    {position : WriteAt}
    (ok : m.RelayOk)
    (pc : m.pc = .here (.write command rest n c position))
    (notRet : position ≠ .ret)
    (udre : m.udre = true)
    (empty : m.tx.Empty)
    (direct : position.buffered = false) :
    (m.writeStep (.write command rest n c) c position).1.tx.Empty ∧
      (m.writeStep (.write command rest n c) c
        position).1.pc.buffered = false := by
  have target := ok.position
  rw [PcOk, pc] at target
  cases position with
  | compareHead | fastSave | fastCli | fastUdr | fastRestore =>
      exact ⟨empty, rfl⟩
  | compareTail head =>
      have isTail : head = m.tx.rd := Eq.trans target empty.symm
      rw [Machine.writeStep, if_pos isTail]
      exact ⟨empty, rfl⟩
  | testUdre =>
      have isEmpty : m.io.bit .ucsr0a udre0 = true := udre
      rw [Machine.writeStep, if_pos isEmpty]
      exact ⟨empty, rfl⟩
  | fastUcsra loaded =>
      cases loaded <;> exact ⟨empty, rfl⟩
  | ret =>
      exact (notRet rfl).elim
  | _ =>
      contradiction

theorem Prompt.mainStep
    {m : Machine}
    (ok : m.RelayOk)
    (prompt : m.Prompt) :
    m.mainStep.1.Prompt := by
  intro udreAfter
  have udre := ok.mainEffect.udre_before udreAfter
  obtain ⟨empty, direct⟩ := prompt udre
  have target := ok.position
  rw [Machine.mainStep]
  cases pc : m.pc with
  | code todo loaded continuation =>
      have same : SameRelay m (m.codeStep todo loaded continuation) :=
        codeStep_sameRelay (ok.confinedCode pc).confined continuation
      rw [PcOk, pc] at target
      have followsLed := target.1
      refine ⟨by rw [same.tx]; exact empty, ?_⟩
      cases todo with
      | nil =>
          cases continuation <;> first | rfl | contradiction
      | cons access rest =>
          cases access <;> cases loaded <;> rfl
  | here position =>
      rw [PcOk, pc] at target
      rw [pc] at direct
      cases position <;> dsimp only
      case construct | init | serialBegin | uartBegin =>
          exact target.elim
      case setTimeout | readIndex | readCell | readNext | readStore
          | sendKey =>
          exact ⟨empty, rfl⟩
      case loopHead | availHead =>
          rw [pollStep]
          split <;> exact ⟨empty, rfl⟩
      case readHead | readTail =>
          rw [readStep]
          split <;> exact ⟨empty, rfl⟩
      case translate ret =>
          refine ⟨empty, ?_⟩
          simp only [sendStep]
          split <;> rfl
      case print command buffer n =>
          cases buffer <;> cases command <;> exact ⟨empty, rfl⟩
      case write command rest n c position =>
          by_cases returned : position = .ret
          · subst returned
            exact ⟨empty, rfl⟩
          · rw [sendStep]
            · exact Prompt.writeStep ok pc returned udre empty direct
            · exact returned

end Machine

end KeyboardEmulator
