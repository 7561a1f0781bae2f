import Mathlib.Data.List.Basic

/-!
# Runs of a partial labelled step function

A system is given by `step?`: in a state an action is either not enabled, or
leads to one next state and emits a list of events.  A run applies a list of
actions and concatenates the events.  The rules below lift facts about one
step to whole runs: an invariant, a history invariant that also speaks about
the events so far, and a potential that bounds how many steps of a chosen kind
a run can take.
-/

namespace LabelledRun

variable {State Action Event : Type}

/-- Apply every action in order; `none` if one of them is not enabled. -/
def run?
    (step? : State → Action → Option (State × List Event)) :
    State → List Action → Option (State × List Event)
  | state, [] =>
      some (state, [])
  | state, action :: rest =>
      match step? state action with
      | none =>
          none
      | some (middle, first) =>
          match run? step? middle rest with
          | none =>
              none
          | some (final, later) =>
              some (final, first ++ later)

section Rules

variable {step? : State → Action → Option (State × List Event)}

@[simp] theorem run?_nil (state : State) :
    run? step? state [] = some (state, []) :=
  rfl

/-- A run of a nonempty action list is one step followed by a run. -/
theorem run?_cons_iff
    {state final : State}
    {action : Action}
    {rest : List Action}
    {events : List Event} :
    run? step? state (action :: rest) = some (final, events) ↔
      ∃ middle first later,
        step? state action = some (middle, first) ∧
          run? step? middle rest = some (final, later) ∧
            events = first ++ later := by
  constructor
  · intro accepted
    cases stepped : step? state action with
    | none =>
        simp [run?, stepped] at accepted
    | some result =>
        rcases result with ⟨middle, first⟩
        cases ran : run? step? middle rest with
        | none =>
            simp [run?, stepped, ran] at accepted
        | some result =>
            rcases result with ⟨reached, later⟩
            simp only [run?, stepped, ran, Option.some.injEq,
              Prod.mk.injEq] at accepted
            obtain ⟨rfl, rfl⟩ := accepted
            exact ⟨middle, first, later, rfl, ran, rfl⟩
  · rintro ⟨middle, first, later, stepped, ran, rfl⟩
    simp [run?, stepped, ran]

/-- Runs compose. -/
theorem run?_append
    {state middle final : State}
    {early late : List Action}
    {before after : List Event}
    (first : run? step? state early = some (middle, before))
    (second : run? step? middle late = some (final, after)) :
    run? step? state (early ++ late) =
      some (final, before ++ after) := by
  induction early generalizing state before with
  | nil =>
      simp only [run?_nil, Option.some.injEq,
        Prod.mk.injEq] at first
      obtain ⟨rfl, rfl⟩ := first
      simpa using second
  | cons action rest inductionHypothesis =>
      obtain ⟨next, head, later, stepped, ran, rfl⟩ :=
        run?_cons_iff.mp first
      rw [List.cons_append, run?_cons_iff]
      exact ⟨next, head, later ++ after, stepped,
        inductionHypothesis ran, by simp⟩

/-- A run of one action is one step. -/
theorem run?_singleton
    {state final : State}
    {action : Action}
    {events : List Event}
    (stepped : step? state action = some (final, events)) :
    run? step? state [action] = some (final, events) := by
  simp [run?, stepped]

/--
A history invariant relates the events so far to the current state.  When
every enabled step preserves it, so does every run.
-/
theorem run?_history
    (invariant : List Event → State → Prop)
    (preserves :
      ∀ {past : List Event} {state next : State}
        {action : Action} {emitted : List Event},
        invariant past state →
        step? state action = some (next, emitted) →
        invariant (past ++ emitted) next)
    {past : List Event}
    {state final : State}
    {actions : List Action}
    {events : List Event}
    (holds : invariant past state)
    (ran : run? step? state actions = some (final, events)) :
    invariant (past ++ events) final := by
  induction actions generalizing past state events with
  | nil =>
      simp only [run?_nil, Option.some.injEq,
        Prod.mk.injEq] at ran
      obtain ⟨rfl, rfl⟩ := ran
      simpa using holds
  | cons action rest inductionHypothesis =>
      obtain ⟨next, first, later, stepped, continued, rfl⟩ :=
        run?_cons_iff.mp ran
      have stillHolds := preserves holds stepped
      simpa using inductionHypothesis stillHolds continued

/-- A state invariant preserved by every enabled step holds after every run. -/
theorem run?_invariant
    (invariant : State → Prop)
    (preserves :
      ∀ {state next : State} {action : Action}
        {emitted : List Event},
        invariant state →
        step? state action = some (next, emitted) →
        invariant next)
    {events : List Event}
    {state final : State}
    {actions : List Action}
    (holds : invariant state)
    (ran : run? step? state actions = some (final, events)) :
    invariant final :=
  @run?_history _ _ _ step? (fun _ => invariant)
    (fun stateHolds stepped => preserves stateHolds stepped)
    [] _ _ _ _ holds ran

/--
A history invariant along with an automaton that says which actions may follow
each other: when every enabled step that the automaton accepts preserves it, so
does every run whose actions it accepts.
-/
theorem run?_guided
    {Phase : Type}
    {next : Phase → Action → Option Phase}
    (invariant : Phase → List Event → State → Prop)
    (preserves :
      ∀ {phase after : Phase} {past : List Event} {state reached : State}
        {action : Action} {emitted : List Event},
        invariant phase past state →
        next phase action = some after →
        step? state action = some (reached, emitted) →
        invariant after (past ++ emitted) reached)
    {phase last : Phase}
    {past : List Event}
    {state final : State}
    {actions : List Action}
    {events : List Event}
    (holds : invariant phase past state)
    (accepted : actions.foldlM next phase = some last)
    (ran : run? step? state actions = some (final, events)) :
    invariant last (past ++ events) final := by
  induction actions generalizing phase past state events with
  | nil =>
      simp only [run?_nil, Option.some.injEq, Prod.mk.injEq] at ran
      obtain ⟨rfl, rfl⟩ := ran
      cases accepted
      simpa using holds
  | cons action rest inductionHypothesis =>
      obtain ⟨reached, first, later, stepped, continued, rfl⟩ :=
        run?_cons_iff.mp ran
      obtain ⟨between, here, onward⟩ :=
        Option.bind_eq_some_iff.mp
          ((List.foldlM_cons (m := Option)).symm.trans accepted)
      have stillHolds := preserves holds here stepped
      simpa using inductionHypothesis stillHolds onward continued

end Rules

/-- How many steps of a run are of the counted kind. -/
def countedSteps
    (step? : State → Action → Option (State × List Event))
    (counted : State → Action → Bool) :
    State → List Action → Nat
  | _, [] =>
      0
  | state, action :: rest =>
      match step? state action with
      | none =>
          0
      | some (middle, _) =>
          (if counted state action then 1 else 0) +
            countedSteps step? counted middle rest

/--
A potential that no allowed step raises, and every counted step lowers, bounds
the number of counted steps of a run by what the run uses up of it.
-/
theorem countedSteps_add_potential_le
    {step? : State → Action → Option (State × List Event)}
    {counted : State → Action → Bool}
    {allowed : Action → Prop}
    {invariant : State → Prop}
    {potential : State → Nat}
    (preserves :
      ∀ {state next : State} {action : Action}
        {emitted : List Event},
        invariant state →
        allowed action →
        step? state action = some (next, emitted) →
        invariant next)
    (pays :
      ∀ {state next : State} {action : Action}
        {emitted : List Event},
        invariant state →
        allowed action →
        step? state action = some (next, emitted) →
        potential next + (if counted state action then 1 else 0) ≤
          potential state)
    {state final : State}
    {actions : List Action}
    {events : List Event}
    (holds : invariant state)
    (onlyAllowed : ∀ action ∈ actions, allowed action)
    (ran : run? step? state actions = some (final, events)) :
    countedSteps step? counted state actions + potential final ≤
      potential state := by
  induction actions generalizing state events with
  | nil =>
      simp only [run?_nil, Option.some.injEq,
        Prod.mk.injEq] at ran
      simp [countedSteps, ran.1]
  | cons action rest inductionHypothesis =>
      obtain ⟨next, first, later, stepped, continued, _⟩ :=
        run?_cons_iff.mp ran
      have isAllowed := onlyAllowed action (by simp)
      have paid := pays holds isAllowed stepped
      have restPaid :=
        inductionHypothesis (preserves holds isAllowed stepped)
          (fun later member => onlyAllowed later (by simp [member]))
          continued
      simp only [countedSteps, stepped]
      omega

/-- Repeat a total step until a test succeeds or the fuel is used up. -/
def stepUntil
    (done : State → Bool)
    (step : State → State × List Event) :
    Nat → State → State × List Event
  | 0, state =>
      (state, [])
  | fuel + 1, state =>
      if done state then
        (state, [])
      else
        let middle := step state
        let final := stepUntil done step fuel middle.1
        (final.1, middle.2 ++ final.2)

/-- A history invariant that the step preserves holds when the repetition ends. -/
theorem stepUntil_history
    {done : State → Bool}
    {step : State → State × List Event}
    (invariant : List Event → State → Prop)
    (preserves :
      ∀ {past : List Event} {state : State},
        invariant past state →
        invariant (past ++ (step state).2) (step state).1)
    (fuel : Nat)
    {past : List Event}
    {state : State}
    (holds : invariant past state) :
    invariant (past ++ (stepUntil done step fuel state).2)
      (stepUntil done step fuel state).1 := by
  induction fuel generalizing past state with
  | zero =>
      simpa [stepUntil] using holds
  | succ fuel inductionHypothesis =>
      cases finished : done state with
      | true =>
          simpa [stepUntil, finished] using holds
      | false =>
          simpa [stepUntil, finished] using
            inductionHypothesis (preserves holds)

/-- Fuel of at least the potential suffices to reach a state passing the test. -/
theorem done_stepUntil
    {done : State → Bool}
    {step : State → State × List Event}
    {invariant : State → Prop}
    {potential : State → Nat}
    (preserves : ∀ {state : State}, invariant state → invariant (step state).1)
    (pays :
      ∀ {state : State},
        invariant state →
        done state = false →
        potential (step state).1 < potential state)
    {fuel : Nat}
    {state : State}
    (holds : invariant state)
    (enough : potential state < fuel) :
    done (stepUntil done step fuel state).1 = true := by
  induction fuel generalizing state with
  | zero =>
      omega
  | succ fuel inductionHypothesis =>
      cases finished : done state with
      | true =>
          simp [stepUntil, finished]
      | false =>
          have lower := pays holds finished
          simpa [stepUntil, finished] using
            inductionHypothesis (preserves holds) (by omega)

/-- Repeating a step is a run of the system whose action it is. -/
theorem run?_stepUntil
    {step? : State → Action → Option (State × List Event)}
    {done : State → Bool}
    {step : State → State × List Event}
    {action : Action}
    (enabled : ∀ state, step? state action = some (step state))
    (fuel : Nat)
    (state : State) :
    ∃ count,
      run? step? state (List.replicate count action) =
        some (stepUntil done step fuel state) := by
  induction fuel generalizing state with
  | zero =>
      exact ⟨0, rfl⟩
  | succ fuel inductionHypothesis =>
      cases finished : done state with
      | true =>
          exact ⟨0, by simp [stepUntil, finished]⟩
      | false =>
          obtain ⟨count, ran⟩ := inductionHypothesis (step state).1
          refine ⟨count + 1, ?_⟩
          have unfolded :
              stepUntil done step (fuel + 1) state =
                ((stepUntil done step fuel (step state).1).1,
                  (step state).2 ++
                    (stepUntil done step fuel (step state).1).2) := by
            simp [stepUntil, finished]
          rw [List.replicate_succ, unfolded, run?_cons_iff]
          exact ⟨(step state).1, (step state).2, _, enabled state,
            ran, rfl⟩

end LabelledRun
