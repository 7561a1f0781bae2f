import KeyboardEmulator.SerialControl
import KeyboardEmulator.SerialDelivery

namespace KeyboardEmulator

open BootKeyboard (Byte)

/-!
# The transmitter is on while it is needed

`begin` turns the transmitter on and `end` turns it off.  An orderly client
writes only in between, and `end` waits until everything is sent.  So whatever
waits in UDR0 can go out.
-/

/-- Neither register code nor the way to that of `end`. -/
def At.plain : At → Bool
  | .code _ _ _ | .endTail | .endHead _ | .flush true _ => false
  | _ => true

namespace Usart

/-- On an open port TXEN is set, or `begin` goes on to set it. -/
def PoweredAt (u : Usart) : At → Prop
  | .code true todo _ =>
      codeBit .ucsr0b txen0 todo (u.control txen0) = true
  | location =>
      location.plain = true ∧ u.control txen0 = true

/-- What the calls so far say about TXEN. -/
structure Powered (phase : Phase) (u : Usart) : Prop where
  held : Held txen0 u
  sends : u.control txen0 = true ∨ u.Quiet
  opened : phase.isOpen = true → u.PoweredAt u.location
  closed : phase.isOpen = false → u.location.writing = false

variable {u : Usart} {phase : Phase}

/-- No `write` runs while the transmitter is off. -/
theorem Powered.notWriting
    (powered : Powered phase u)
    (off : u.control txen0 ≠ true) :
    u.location.writing = false := by
  cases isOpen : phase.isOpen with
  | false =>
      exact powered.closed isOpen
  | true =>
      have opened := powered.opened isOpen
      cases here : u.location with
      | write c position =>
          rw [here] at opened
          exact absurd opened.2 off
      | _ =>
          rfl

/-- The transmitter stays on, or there is still nothing to send. -/
theorem Powered.sends_step
    {result : Usart × List Event}
    (powered : Powered phase u)
    (simulates : Simulates u result)
    (bit : result.1.control txen0 = u.control txen0)
    (noWriting : result.2.filterMap Event.writing? = []) :
    result.1.control txen0 = true ∨ result.1.Quiet := by
  by_cases on : u.control txen0 = true
  · exact .inl (bit.trans on)
  · have quiet := powered.sends.resolve_left on
    have committed := uncommitted_of_notWriting (powered.notWriting on)
    exact .inr (simulates.quiet quiet committed noWriting)

/-- Handlers and hardware change neither position nor TXEN. -/
theorem Powered.environment
    {result : Usart × List Event}
    (powered : Powered phase u)
    (simulates : Simulates u result)
    (held : Held txen0 result.1)
    (bit : result.1.control txen0 = u.control txen0)
    (location : result.1.location = u.location)
    (noWriting : result.2.filterMap Event.writing? = []) :
    Powered phase result.1 := by
  refine ⟨held, powered.sends_step simulates bit noWriting, fun isOpen => ?_,
    fun isClosed => ?_⟩
  · have opened := powered.opened isOpen
    rw [location]
    cases here : u.location with
    | code opening todo loaded =>
        rw [here] at opened
        cases opening with
        | true =>
            rw [PoweredAt, bit]
            exact opened
        | false =>
            exact absurd opened.1 Bool.false_ne_true
    | _ =>
        rw [here] at opened
        exact ⟨opened.1, bit.trans opened.2⟩
  · rw [location]
    exact powered.closed isClosed

/-! ## Methods -/

theorem codeBit_beginCode
    (baud : Nat)
    (config : BitVec 8)
    (x : Bool) :
    codeBit .ucsr0b txen0 (HardwareSerial.beginCode baud config) x = true := by
  rw [HardwareSerial.beginCode]
  split <;> cases x <;> rfl

/-- The client calls a method. -/
theorem Powered.enter
    {method : Method}
    {after : Phase}
    (powered : Powered phase u)
    (outside : u.inMethod = false)
    (allowed : phase.call method = some after)
    (quiet : ∀ baud config, method = .begin baud config → u.Quiet) :
    Powered after (u.enter method).1 := by
  have client := client_of_outside outside
  have held : Held txen0 (u.enter method).1 :=
    held_of_nothing (by cases method <;> rfl)
  have opened := powered.opened
  rw [client] at opened
  have sends : (u.enter method).1.control txen0 = true ∨
      (u.enter method).1.Quiet := by
    refine powered.sends.imp (fun on => ?_) (fun isQuiet => ?_)
    · cases method <;> exact on
    · cases method <;>
        exact ⟨isQuiet.txEmpty, isQuiet.udre, isQuiet.shifting⟩
  cases method with
  | begin baud config =>
      refine ⟨held, sends, fun _ => codeBit_beginCode baud config _,
        fun _ => rfl⟩
  | write c =>
      rw [Phase.call] at allowed
      split at allowed
      next isOpen =>
        cases allowed
        refine ⟨held, sends, fun _ => opened isOpen, fun isClosed => ?_⟩
        exact absurd (isOpen.symm.trans isClosed) (by decide)
      next =>
        contradiction
  | «end» =>
      cases allowed
      exact ⟨held, sends, fun isOpen => absurd isOpen Bool.false_ne_true,
        fun _ => rfl⟩
  | _ =>
      cases allowed
      exact ⟨held, sends, opened, fun _ => rfl⟩

theorem plain_runStep
    (plain : u.location.plain = true) :
    u.runStep.1.location.plain = true := by
  rw [runStep]
  cases here : u.location with
  | client =>
      rw [here]
      rfl
  | code opening todo loaded | endTail | endHead tail =>
      rw [here] at plain
      contradiction
  | readTail head | peekTail head =>
      simp only [readStep, peekStep]
      split <;> rfl
  | flush ending position =>
      rw [here] at plain
      cases ending with
      | true =>
          contradiction
      | false =>
          cases position with
          | ret =>
              rfl
          | _ =>
              simp only [flushStep]
              split <;> rfl
  | write c position =>
      simp only [writeStep]
      split <;> rfl
  | _ =>
      rfl

theorem poweredAt_of_plain
    {location : At}
    (plain : location.plain = true)
    (on : u.control txen0 = true) :
    u.PoweredAt location := by
  cases location with
  | code opening todo loaded =>
      contradiction
  | _ =>
      exact ⟨plain, on⟩

/-- `begin` comes nearer to an open port, and other methods leave it open. -/
theorem Powered.opened_runStep
    (powered : Powered phase u)
    (isOpen : phase.isOpen = true) :
    u.runStep.1.PoweredAt u.runStep.1.location := by
  have opened := powered.opened isOpen
  cases here : u.location with
  | code opening todo loaded =>
      rw [here] at opened
      rw [runStep, here]
      cases opening with
      | false =>
          exact absurd opened.1 Bool.false_ne_true
      | true =>
          cases todo with
          | nil =>
              exact ⟨rfl, opened⟩
          | cons access rest =>
              rw [PoweredAt, codeBit_cons] at opened
              cases codeStep_control powered.held here with
              | loads value location bit =>
                  rw [location, PoweredAt, codeBit_cons, bit]
                  exact opened
              | performs location bit =>
                  rw [location, PoweredAt, bit]
                  exact opened
  | _ =>
      rw [here] at opened
      have bit := control_runStep (by decide) powered.held (by rw [here]; rfl)
      have plain := plain_runStep (here.symm ▸ opened.1)
      exact poweredAt_of_plain plain (bit.trans opened.2)

theorem Powered.runStep
    {past : List (TransmitPipeline.Label Byte)}
    (powered : Powered phase u)
    (ok : u.TxOk)
    (accounts : TransmitPipeline.Accounts past u.pipe) :
    Powered phase u.runStep.1 := by
  have simulates := Simulates.runStep ok accounts
  have noWriting := noWriting_runStep u
  refine ⟨powered.held.runStep (by decide), ?_, powered.opened_runStep,
    fun isClosed => writing_runStep (powered.closed isClosed)⟩
  cases inCode : u.location.inCode with
  | false =>
      exact powered.sends_step simulates
        (control_runStep (by decide) powered.held inCode) noWriting
  | true =>
      -- register code runs with nothing on its way
      cases here : u.location with
      | code opening todo loaded =>
          have target := ok.position
          rw [here] at target
          have committed : u.location.uncommitted = [] := by
            rw [here]
            rfl
          exact .inr (simulates.quiet target.quiet committed noWriting)
      | _ =>
          rw [here] at inCode
          contradiction

/-- Every step of an orderly client's run. -/
theorem Powered.step?
    {after : Phase}
    {past : List Event}
    {action : Action}
    {result : Usart × List Event}
    (powered : Powered phase u)
    (tracks : Tracks phase past u)
    (allowed : phase.next action = some after)
    (stepped : u.step? action = some result) :
    Powered after result.1 := by
  have quiet := tracks.quiet allowed stepped
  obtain ⟨labels, accounts, -⟩ := tracks.follows.account
  have simulates :=
    Simulates.step? tracks.follows.ok accounts quiet stepped
  have held := powered.held.step? (by decide) stepped
  have stays :
      action ≠ .run →
        result.1.location = u.location →
          result.2.filterMap Event.writing? = [] →
            phase = after →
              Powered after result.1 := by
    rintro notRun location noWriting rfl
    exact powered.environment simulates held
      (control_step? (by decide) powered.held
        (fun isRun => absurd isRun notRun) stepped) location noWriting
  cases step?_inversion stepped with
  | call outside method =>
      exact powered.enter outside allowed
        (fun baud config isBegin => quiet baud config (congrArg _ isBegin))
  | run inside =>
      cases allowed
      exact powered.runStep tracks.follows.ok accounts
  | usartReceive enabled rxcie c parityError result handled =>
      refine stays (by simp) rfl ?_ (Option.some.inj allowed)
      rw [List.filterMap_cons, (receiveEvent_silent _ _ _).1]
      rfl
  | _ =>
      exact stays (by simp) rfl rfl (Option.some.inj allowed)

/-- What holds in every run of an orderly client. -/
structure Runs (phase : Phase) (past : List Event) (u : Usart) : Prop where
  tracks : Tracks phase past u
  powered : Powered phase u

theorem Runs.step?
    {after : Phase}
    {past emitted : List Event}
    {next : Usart}
    {action : Action}
    (runs : Runs phase past u)
    (allowed : phase.next action = some after)
    (stepped : u.step? action = some (next, emitted)) :
    Runs after (past ++ emitted) next :=
  ⟨runs.tracks.step? allowed stepped,
    runs.powered.step? runs.tracks allowed stepped⟩

theorem Fresh.powered
    (fresh : u.Fresh) :
    Powered .beforeBegin u := by
  refine ⟨held_of_nothing ?_, .inr ⟨fresh.txEmpty, fresh.udre, fresh.idle⟩,
    fun isOpen => absurd isOpen Bool.false_ne_true, fun _ => ?_⟩
  · rw [fresh.client]
    rfl
  · rw [fresh.client]
    rfl

theorem Fresh.run?_runs
    {start : Usart}
    {actions : List Action}
    {events : List Event}
    (fresh : start.Fresh)
    (orderly : actions.foldlM Phase.next Phase.beforeBegin = some phase)
    (ran : start.run? actions = some (u, events)) :
    Runs phase events u :=
  @LabelledRun.run?_guided _ _ _ Usart.step? _ Phase.next Runs
    (fun holds allowed stepped => holds.step? allowed stepped) _ _ _ _ _ _ _
    ⟨fresh.tracks, fresh.powered⟩ orderly ran

end Usart

end KeyboardEmulator
