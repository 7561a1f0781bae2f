import Mathlib.Data.List.Basic

/-!
# A transmitter behind a queue

Values go from a bounded queue, or past it while it is empty, into a data
register, from there into a shift register, and out.  A flag says that the
transmission is complete: it is raised when the shift register runs out with
nothing in the data register, and lowered when the data register is filled.
Whatever the order of steps, everything accepted leaves once and in order, and
the flag tells exactly whether something is still on its way.
-/

namespace TransmitPipeline

variable {β : Type}

/-- What is on its way, and the flag. -/
structure State (β : Type) where
  queued : List β
  data : Option β
  shifting : Option β
  complete : Bool

/-- What a step can be seen to do. -/
inductive Label (β : Type) where
  | accepted (b : β)
  | finished (b : β)
  deriving Repr, DecidableEq

namespace Label

@[simp] def accepted? : Label β → Option β
  | .accepted b => some b
  | .finished _ => none

@[simp] def finished? : Label β → Option β
  | .finished b => some b
  | .accepted _ => none

end Label

/-- The steps of the transmitter and of whoever fills it. -/
inductive Step
    (capacity : Nat)
    (s : State β) : Option (Label β) → State β → Prop where
  | enqueue
      (b : β)
      (room : s.queued.length < capacity) :
      Step capacity s
        (some (.accepted b)) { s with queued := s.queued ++ [b] }
  | bypass
      (b : β)
      (empty : s.queued = [])
      (free : s.data = none) :
      Step capacity s
        (some (.accepted b)) { s with data := some b, complete := false }
  | transmit
      (b : β)
      (rest : List β)
      (head : s.queued = b :: rest)
      (free : s.data = none) :
      Step capacity s
        none { s with queued := rest, data := some b, complete := false }
  | load
      (b : β)
      (full : s.data = some b)
      (free : s.shifting = none) :
      Step capacity s
        none { s with data := none, shifting := some b }
  | finish
      (b : β)
      (busy : s.shifting = some b) :
      Step capacity s
        (some (.finished b))
        { s with
          shifting := none
          complete := s.complete || s.data.isNone }
  | stutter :
      Step capacity s none s

/-- A step queues no more than it accepts. -/
theorem Step.queued_le
    {capacity : Nat}
    {s next : State β}
    {label : Option (Label β)}
    (stepped : Step capacity s label next) :
    next.queued.length ≤
      s.queued.length +
        (label.toList.filterMap Label.accepted?).length := by
  cases stepped with
  | enqueue b room =>
      simp
  | transmit b rest head free =>
      simp [head]
  | _ =>
      exact Nat.le_add_right _ _

/-- Nothing is on its way. -/
structure Drained (s : State β) : Prop where
  queued : s.queued = []
  data : s.data = none
  shifting : s.shifting = none

/-- Nothing comes on its way but what is accepted. -/
theorem Drained.step
    {capacity : Nat}
    {s next : State β}
    {label : Option (Label β)}
    (drained : Drained s)
    (stepped : Step capacity s label next)
    (nothing : label.toList.filterMap Label.accepted? = []) :
    Drained next := by
  obtain ⟨queued, data, shifting⟩ := drained
  cases stepped with
  | enqueue | bypass =>
      contradiction
  | transmit b rest head free =>
      rw [queued] at head
      contradiction
  | load b full free =>
      rw [data] at full
      contradiction
  | finish b busy =>
      exact ⟨queued, data, rfl⟩
  | stutter =>
      exact ⟨queued, data, shifting⟩

/-- The history so far accounts for everything on its way and for the flag. -/
structure Accounts
    (past : List (Label β))
    (s : State β) : Prop where
  flow :
    past.filterMap Label.accepted? =
      past.filterMap Label.finished? ++
        (s.shifting.toList ++ s.data.toList ++ s.queued)
  /-- a raised flag is to be trusted -/
  sound : s.complete = true → s.data = none ∧ s.shifting = none
  /-- the flag is raised once something was sent and all of it is out -/
  raised :
    past.filterMap Label.accepted? ≠ [] → Drained s → s.complete = true

/-- Nothing happened and nothing is on its way. -/
theorem accounts_nil
    {s : State β}
    (drained : Drained s) :
    Accounts [] s := by
  obtain ⟨queued, data, shifting⟩ := drained
  constructor <;> simp [queued, data, shifting]

/-- Every step keeps the account. -/
theorem Accounts.step
    {capacity : Nat}
    {past : List (Label β)}
    {s next : State β}
    {label : Option (Label β)}
    (accounts : Accounts past s)
    (stepped : Step capacity s label next) :
    Accounts (past ++ label.toList) next := by
  obtain ⟨flow, sound, raised⟩ := accounts
  cases stepped with
  | enqueue b room =>
      refine ⟨?_, sound, fun _ drained => ?_⟩
      · simp [flow]
      · have nonempty := drained.queued
        simp at nonempty
  | bypass b empty free =>
      rw [empty, free] at flow
      refine ⟨?_, fun raisedFlag => ?_, fun _ drained => ?_⟩
      · simp [flow, empty]
      · contradiction
      · have filled := drained.data
        contradiction
  | transmit b rest head free =>
      rw [head, free] at flow
      refine ⟨?_, fun raisedFlag => ?_, fun _ drained => ?_⟩
      · simp [flow]
      · contradiction
      · have filled := drained.data
        contradiction
  | load b full free =>
      rw [full, free] at flow
      refine ⟨?_, fun raisedFlag => ?_, fun _ drained => ?_⟩
      · simp [flow]
      · have empty := (sound raisedFlag).1
        rw [full] at empty
        contradiction
      · have busy := drained.shifting
        contradiction
  | finish b busy =>
      rw [busy] at flow
      refine ⟨?_, fun raisedFlag => ?_, fun _ drained => ?_⟩
      · simp [flow]
      · refine ⟨?_, rfl⟩
        rcases Bool.or_eq_true_iff.mp raisedFlag with before | empty
        · exact (sound before).1
        · exact Option.isNone_iff_eq_none.mp empty
      · have empty := drained.data
        simp only at empty
        simp [empty]
  | stutter =>
      simpa using ⟨flow, sound, raised⟩

/-- With an empty queue a raised flag means that nothing is on its way. -/
theorem Accounts.drained_of_complete
    {past : List (Label β)}
    {s : State β}
    (accounts : Accounts past s)
    (queued : s.queued = [])
    (complete : s.complete = true) :
    Drained s :=
  ⟨queued, (accounts.sound complete).1, (accounts.sound complete).2⟩

end TransmitPipeline
