import Mathlib.Data.List.Basic

/-!
# A relay between two bounded queues

A worker takes elements from a bounded input queue, expands each into a list of
outputs and hands the outputs on, either into a bounded output queue or, while
that queue is empty, straight out.  Inputs that find their queue full are
dropped.  Whatever the order of steps, nothing is lost, duplicated or reordered
on the way.
-/

namespace BoundedRelay

variable {α β : Type}

/-- What the relay holds, oldest first. -/
structure State (α β : Type) where
  unread : List α
  /-- the element taken and not yet expanded -/
  pending : Option α
  owed : List β
  queued : List β

/-- What a step can be seen to do. -/
inductive Label (α β : Type) where
  | stored (a : α)
  | dropped (a : α)
  | consumed (a : α)
  | translated (a : α)
  | sent (b : β)
  deriving Repr, DecidableEq

namespace Label

@[simp] def stored? : Label α β → Option α
  | .stored a => some a
  | _ => none

@[simp] def dropped? : Label α β → Option α
  | .dropped a => some a
  | _ => none

@[simp] def consumed? : Label α β → Option α
  | .consumed a => some a
  | _ => none

@[simp] def translated? : Label α β → Option α
  | .translated a => some a
  | _ => none

@[simp] def sent? : Label α β → Option β
  | .sent b => some b
  | _ => none

end Label

/-- The steps of the relay, each with what can be seen of it. -/
inductive Step
    (expand : α → List β)
    (inputCapacity outputCapacity : Nat)
    (s : State α β) : Option (Label α β) → State α β → Prop where
  | store
      (a : α)
      (room : s.unread.length < inputCapacity) :
      Step expand inputCapacity outputCapacity s
        (some (.stored a)) { s with unread := s.unread ++ [a] }
  | drop
      (a : α)
      (full : s.unread.length = inputCapacity) :
      Step expand inputCapacity outputCapacity s (some (.dropped a)) s
  | consume
      (a : α)
      (rest : List α)
      (head : s.unread = a :: rest)
      (idle : s.pending = none)
      (done : s.owed = []) :
      Step expand inputCapacity outputCapacity s
        (some (.consumed a)) { s with unread := rest, pending := some a }
  | translate
      (a : α)
      (head : s.pending = some a)
      (done : s.owed = []) :
      Step expand inputCapacity outputCapacity s
        (some (.translated a)) { s with pending := none, owed := expand a }
  | enqueue
      (b : β)
      (rest : List β)
      (head : s.owed = b :: rest)
      (room : s.queued.length < outputCapacity) :
      Step expand inputCapacity outputCapacity s
        none { s with owed := rest, queued := s.queued ++ [b] }
  | bypass
      (b : β)
      (rest : List β)
      (head : s.owed = b :: rest)
      (empty : s.queued = []) :
      Step expand inputCapacity outputCapacity s
        (some (.sent b)) { s with owed := rest }
  | transmit
      (b : β)
      (rest : List β)
      (head : s.queued = b :: rest) :
      Step expand inputCapacity outputCapacity s
        (some (.sent b)) { s with queued := rest }
  | stutter :
      Step expand inputCapacity outputCapacity s none s

/-- The history so far accounts for everything the relay holds. -/
structure Accounts
    (expand : α → List β)
    (past : List (Label α β))
    (s : State α β) : Prop where
  accepted :
    past.filterMap Label.stored? =
      past.filterMap Label.consumed? ++ s.unread
  worked :
    past.filterMap Label.consumed? =
      past.filterMap Label.translated? ++ s.pending.toList
  delivered :
    past.filterMap Label.sent? ++ s.queued ++ s.owed =
      (past.filterMap Label.translated?).flatMap expand

/-- Nothing happened and nothing is held. -/
theorem accounts_nil
    (expand : α → List β)
    {s : State α β}
    (noUnread : s.unread = [])
    (noPending : s.pending = none)
    (noOwed : s.owed = [])
    (noQueued : s.queued = []) :
    Accounts expand [] s := by
  constructor <;> simp [noUnread, noPending, noOwed, noQueued]

/-- Every step keeps the account. -/
theorem Accounts.step
    {expand : α → List β}
    {inputCapacity outputCapacity : Nat}
    {past : List (Label α β)}
    {s next : State α β}
    {label : Option (Label α β)}
    (accounts : Accounts expand past s)
    (stepped : Step expand inputCapacity outputCapacity s label next) :
    Accounts expand (past ++ label.toList) next := by
  obtain ⟨accepted, worked, delivered⟩ := accounts
  cases stepped with
  | store | drop | stutter =>
      constructor <;> simp_all [List.filterMap_cons]
  | consume a rest head idle =>
      rw [head] at accepted
      rw [idle] at worked
      constructor <;> simp_all [List.filterMap_cons]
  | translate a head done =>
      rw [head] at worked
      rw [done, List.append_nil] at delivered
      constructor <;> simp_all [List.filterMap_cons]
  | enqueue b rest head =>
      rw [head] at delivered
      constructor <;> simp_all
  | bypass b rest head empty =>
      rw [head, empty] at delivered
      constructor <;> simp_all [List.filterMap_cons]
  | transmit b rest head =>
      rw [head] at delivered
      constructor <;> simp_all [List.filterMap_cons]

/-- The worker never owes more than one element expands to. -/
theorem Step.owed_length_le
    {expand : α → List β}
    {inputCapacity outputCapacity bound : Nat}
    (expandBound : ∀ a, (expand a).length ≤ bound)
    {s next : State α β}
    {label : Option (Label α β)}
    (stepped : Step expand inputCapacity outputCapacity s label next)
    (within : s.owed.length ≤ bound) :
    next.owed.length ≤ bound := by
  cases stepped with
  | translate a head done =>
      exact expandBound a
  | enqueue b rest head room =>
      rw [head, List.length_cons] at within
      exact Nat.le_of_succ_le within
  | bypass b rest head empty =>
      rw [head, List.length_cons] at within
      exact Nat.le_of_succ_le within
  | _ =>
      exact within

end BoundedRelay
