import KeyboardEmulator.SerialPotential
import KeyboardEmulator.SerialPower

namespace KeyboardEmulator

open BootKeyboard (Byte)
open RingBuffer (Ring next)

/-!
# Every call returns

The potential bounds the steps of the methods and of the transmitter that are
not waits.  While a method runs there always is one to take: what it waits for
is on its way, or it can call the handler itself.
-/

namespace Usart

/-! ## Where it stops -/

/-- No step that is bounded is enabled. -/
def Stopped (u : Usart) : Prop :=
  ∀ (action : Action) (result : Usart × List Event),
    u.step? action = some result → u.counted action = false

/-- The method that runs waits in the loop of `flush` or of `write`. -/
theorem waits_cases
    {u : Usart}
    (ok : u.TxOk)
    (waiting : u.waits = true) :
    u.location.enabling = false ∧ u.inWindow = false ∧
      ((u.written = true ∧ u.location.uncommitted = [] ∧
          u.allSent = false ∧ (u.canPoll && u.m.udrie) = false) ∨
        (u.m.tx.Full ∧ u.canPoll = false)) := by
  have target := ok.position
  rw [waits] at waiting
  cases here : u.location with
  | flush ending position =>
      rw [here] at waiting target
      simp only [Bool.and_eq_true, Bool.not_eq_true'] at waiting
      obtain ⟨⟨inLoop, unsent⟩, noPoll⟩ := waiting
      refine ⟨rfl, by rw [inWindow, here], .inl ⟨?_, rfl, unsent, noPoll⟩⟩
      cases position with
      | testWritten | ret =>
          contradiction
      | testUdrie | testSreg =>
          exact target
      | testTxc | testUdrieOff | testUdre =>
          exact target.1
  | write c position =>
      rw [here] at waiting target
      cases position with
      | spin i =>
          simp only [Bool.and_eq_true, decide_eq_true_eq,
            Bool.not_eq_true'] at waiting
          refine ⟨rfl, by rw [inWindow, here], .inr ⟨?_, waiting.2⟩⟩
          exact target.2.symm.trans waiting.1
      | spinSreg i | spinUdre i =>
          simp only [Bool.and_eq_true, decide_eq_true_eq,
            Bool.not_eq_true'] at waiting
          refine ⟨rfl, by rw [inWindow, here], .inr ⟨?_, waiting.2⟩⟩
          exact target.2.1.symm.trans waiting.1
      | _ =>
          contradiction
  | _ =>
      rw [here] at waiting
      contradiction

/-- What a stopped system has nothing left to do with. -/
structure Settled (u : Usart) : Prop where
  udre : u.m.udre = true
  shifting : u.inWindow = false → u.shifting = none
  noHandler : u.m.sregI = true → u.m.udrie = false
  waits : u.inMethod = true → u.waits = true

theorem Stopped.settled
    {u : Usart}
    (sends : u.control txen0 = true ∨ u.Quiet)
    (stopped : u.Stopped) :
    u.Settled := by
  have idle : u.inMethod = true → u.waits = true := by
    intro inside
    have refused := stopped .run _ (by rw [step?, if_pos inside])
    simpa [counted] using refused
  have notShifting : u.inWindow = false → u.shifting = none := by
    intro outside
    cases shifting : u.shifting with
    | none =>
        rfl
    | some b =>
        have finishes :
            ∃ result, u.step? .finish = some result := by
          simp only [step?, shifting, outside]
          split <;> exact ⟨_, rfl⟩
        obtain ⟨result, stepped⟩ := finishes
        have refused := stopped .finish result stepped
        contradiction
  have udre : u.m.udre = true := by
    by_contra full
    have on : u.txen = true := by
      refine sends.resolve_right (fun quiet => full quiet.udre)
    rw [Bool.not_eq_true] at full
    have busy : u.shifting ≠ none := by
      intro free
      have loads : ∃ result, u.step? .load = some result := by
        simp only [step?, free, on, Option.isSome_none, Bool.not_true,
          Bool.or_self, Bool.false_eq_true, ↓reduceIte, Machine.step?,
          show u.m.io.bit .ucsr0a udre0 = false from full]
        exact ⟨_, rfl⟩
      obtain ⟨result, stepped⟩ := loads
      have refused := stopped .load result stepped
      contradiction
    obtain ⟨b, shifting⟩ := Option.ne_none_iff_exists'.mp busy
    have refused :=
      stopped .finish ({ u with shifting := none }, [.finished b]) (by
        simp [step?, shifting,
          show u.m.io.bit .ucsr0a udre0 = false from full])
    contradiction
  refine ⟨udre, notShifting, fun enabled => ?_, idle⟩
  by_contra set
  rw [Bool.not_eq_false] at set
  have allowed :
      (u.m.sregI && u.m.io.bit .ucsr0b udrie0 &&
        u.m.io.bit .ucsr0a udre0) = true := by
    rw [enabled, show u.m.io.bit .ucsr0b udrie0 = true from set,
      show u.m.io.bit .ucsr0a udre0 = true from udre]
    rfl
  have refused :=
    stopped .dataRegisterEmpty
      (u.absorb (u.m.interrupt Machine.txUdrEmptyIrq), [])
      (by simp only [step?, Machine.step?, if_pos allowed])
  contradiction

/-- A system that stopped has returned to the client, with nothing on its way. -/
structure Returned (u : Usart) : Prop where
  outside : u.inMethod = false
  shifting : u.shifting = none
  udre : u.m.udre = true
  txEmpty : u.m.sregI = true → u.m.tx.Empty

theorem Runs.returned_of_stopped
    {phase : Phase}
    {past : List Event}
    {u : Usart}
    (runs : Runs phase past u)
    (stopped : u.Stopped) :
    u.Returned := by
  have follows := runs.tracks.follows
  have ok := follows.ok
  have settled := stopped.settled runs.powered.sends
  have outside : u.inMethod = false := by
    by_contra inside
    rw [Bool.not_eq_false] at inside
    obtain ⟨notEnabling, window, waiting⟩ :=
      waits_cases ok (settled.waits inside)
    have udrie := ok.udrie notEnabling
    have idle := settled.shifting window
    rcases waiting with ⟨written, owed, unsent, noPoll⟩ | ⟨isFull, noPoll⟩
    · -- nothing is on its way, so TXC is set
      have off : u.m.udrie = false := by
        by_contra set
        rw [Bool.not_eq_false] at set
        cases enabled : u.m.sregI with
        | true =>
            rw [settled.noHandler enabled] at set
            contradiction
        | false =>
            simp [canPoll, enabled, settled.udre, set] at noPoll
      have txEmpty : u.m.tx.Empty :=
        not_not.mp (mt udrie.mpr (by simp [off]))
      obtain ⟨labels, accounts, _, _, wrote⟩ := follows.account
      have drained : TransmitPipeline.Drained u.pipe :=
        Quiet.drained ⟨txEmpty, settled.udre, idle⟩
      have complete := accounts.raised (wrote written owed) drained
      rw [pipe, Bool.and_eq_true] at complete
      simp [allSent, off, complete.1] at unsent
    · have nonempty : ¬ u.m.tx.Empty :=
        fun empty => Ring.not_full_of_empty (by decide) empty isFull
      have set := udrie.mpr nonempty
      cases enabled : u.m.sregI with
      | true =>
          rw [settled.noHandler enabled] at set
          contradiction
      | false =>
          simp [canPoll, enabled, settled.udre] at noPoll
  have window : u.inWindow = false := by
    rw [inWindow]
    cases here : u.location <;> simp [inMethod, here] at outside ⊢
  refine ⟨outside, settled.shifting window, settled.udre, fun enabled => ?_⟩
  have notEnabling := (notEnabling_of_enabled ok.flag enabled).1
  have off := settled.noHandler enabled
  exact not_not.mp (mt (ok.udrie notEnabling).mpr (by simp [off]))

/-! ## The bound -/

/-- A bound on the steps left, from the queued bytes and the position. -/
def stepBound (u : Usart) : Nat :=
  10 * u.m.tx.contents.length + 31 +
    match u.location with
    | .code _ todo _ => 2 * todo.length
    | _ => 0

theorem potential_le_stepBound (u : Usart) : u.potential ≤ u.stepBound := by
  have weighs : u.weight ≤ 10 * u.m.tx.contents.length + 3 := by
    rw [weight, Ring.length_contents]
    split <;> split <;> omega
  have costs :
      u.methodCost u.location ≤
        28 + match u.location with
          | .code _ todo _ => 2 * todo.length
          | _ => 0 := by
    cases location : u.location with
    | code opening todo loaded =>
        simp only [methodCost, codeCost]
        split <;> split <;> omega
    | flush ending position =>
        have most := u.flushCost_le position
        cases ending <;> simp [methodCost, codeCost, endCode] <;> omega
    | write c position =>
        exact u.writeCost_le position
    | _ =>
        simp [methodCost]
  rw [potential, stepBound]
  omega

/-- Whatever method runs, it returns. -/
structure Returns (u : Usart) : Prop where
  /-- steps other than waits and receptions are bounded -/
  bounded :
    ∀ (actions : List Action) (final : Usart) (seen : List Event),
      (∀ action ∈ actions, action.isClient = false) →
      u.run? actions = some (final, seen) →
        LabelledRun.countedSteps step? counted u actions ≤ u.stepBound
  /-- and there is one to take until the method has returned -/
  stopsReturned :
    ∀ (actions : List Action) (final : Usart) (seen : List Event),
      (∀ action ∈ actions, action.isClient = false) →
      u.run? actions = some (final, seen) →
      final.Stopped →
        final.Returned

/-- Methods, handlers and hardware run on whatever the client called before. -/
theorem Runs.system
    {phase : Phase}
    {past emitted : List Event}
    {u next : Usart}
    {action : Action}
    (runs : Runs phase past u)
    (system : action.isClient = false)
    (stepped : u.step? action = some (next, emitted)) :
    Runs phase (past ++ emitted) next := by
  refine runs.step? ?_ stepped
  cases action with
  | call | setFlag =>
      contradiction
  | _ =>
      rfl

theorem Runs.run?_system
    {phase : Phase}
    {past seen : List Event}
    {u final : Usart}
    {actions : List Action}
    (runs : Runs phase past u)
    (system : ∀ action ∈ actions, action.isClient = false)
    (ran : u.run? actions = some (final, seen)) :
    Runs phase (past ++ seen) final := by
  induction actions generalizing u past seen with
  | nil =>
      cases ran
      rw [List.append_nil]
      exact runs
  | cons action rest inductionHypothesis =>
      obtain ⟨middle, first, later, stepped, continued, rfl⟩ :=
        LabelledRun.run?_cons_iff.mp ran
      obtain ⟨here, onward⟩ := List.forall_mem_cons.mp system
      rw [← List.append_assoc]
      exact inductionHypothesis (runs.system here stepped) onward continued

/--
Every call of an orderly client returns, with interrupts on or off: no loop of
`flush`, `end` or `write` waits for something that cannot happen.
-/
theorem serial_returns
    {start u : Usart}
    {past : List Action}
    {events : List Event}
    (fresh : start.Fresh)
    (orderly : Orderly past)
    (ran : start.run? past = some (u, events)) :
    u.Returns := by
  obtain ⟨phase, reached⟩ := Option.isSome_iff_exists.mp orderly
  have runs := fresh.run?_runs reached ran
  constructor
  · intro actions final seen system onward
    have paid :=
      @LabelledRun.countedSteps_add_potential_le _ _ _ step? counted
        (fun action => action.isClient = false)
        (fun state => ∃ past, Runs phase past state) potential
        (fun ⟨past, holds⟩ allowed stepped =>
          ⟨_, holds.system allowed stepped⟩)
        (fun {state next action emitted} ⟨_, holds⟩ allowed stepped =>
          @pays state action (next, emitted) holds.tracks.follows.ok allowed
            stepped)
        u final actions seen ⟨events, runs⟩ system onward
    have bound := u.potential_le_stepBound
    omega
  · intro actions final seen system onward stopped
    exact (runs.run?_system system onward).returned_of_stopped stopped

/-- `flush` has to send what is queued itself, with interrupts off. -/
def flushesAlone : List Action :=
  writesTwo ++ [.setFlag false, .call .flush, .run, .run]

theorem run?_flushesAlone :
    (powerOn.run? flushesAlone).isSome = true := by
  decide +kernel

theorem serial_returns_flushesAlone :
    ((powerOn.run? flushesAlone).get run?_flushesAlone).1.Returns :=
  serial_returns powerOn_fresh (by decide)
    (Option.some_get run?_flushesAlone).symm

end Usart

end KeyboardEmulator
