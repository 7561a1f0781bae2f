import Mathlib.Data.List.Basic
import Mathlib.Logic.Function.Basic

/-!
# One mailbox lent to one owner at a time

A bounded queue serves many owners, one at a time, and is empty whenever it
changes hands.  What arrives while it is full is lost and noted for its owner.
Whatever the order of steps, an owner takes only what was delivered to it, in
order and once, and since it last opened the box nothing delivered is missing.
-/

namespace SharedMailbox

variable {ι β : Type}

/-- Who has the box, what is in it, and who has lost something. -/
structure State (ι β : Type) where
  owner : Option ι
  queue : List β
  lost : ι → Bool

/-- What a step can be seen to do. -/
inductive Label (ι β : Type) where
  | opened (o : ι)
  | closed (o : ι)
  | delivered (o : ι) (b : β)
  | dropped (o : ι) (b : β)
  | took (o : ι) (b : β)
  /-- an attempt to take that found nothing -/
  | missed (o : ι)
  /-- the note of a loss is asked for, and taken away -/
  | asked (o : ι) (answer : Bool)
  | forgot (o : ι)
  deriving Repr, DecidableEq

namespace Label

def isOpened : Label ι β → Bool
  | .opened _ => true
  | _ => false

variable [DecidableEq ι]

def deliveredTo? (o : ι) : Label ι β → Option β
  | .delivered o' b => if o' = o then some b else none
  | _ => none

def takenBy? (o : ι) : Label ι β → Option β
  | .took o' b => if o' = o then some b else none
  | _ => none

/-- Whether a loss of `o` is noted after this step. -/
def losing (o : ι) (noted : Bool) : Label ι β → Bool
  | .dropped o' _ => noted || o' == o
  | .asked o' _ | .forgot o' => noted && o' != o
  | _ => noted

end Label

/-- What happened since the box was last opened. -/
def sinceOpened (past : List (Label ι β)) : List (Label ι β) :=
  past.foldl
    (fun recent label => if label.isOpened then [] else recent ++ [label]) []

theorem sinceOpened_concat
    (past : List (Label ι β))
    (label : Label ι β) :
    sinceOpened (past ++ [label]) =
      if label.isOpened then [] else sinceOpened past ++ [label] := by
  rw [sinceOpened, List.foldl_append]
  rfl

variable [DecidableEq ι]

/-- The steps of the owners and of whoever delivers. -/
inductive Step
    (capacity : Nat)
    (s : State ι β) : Option (Label ι β) → State ι β → Prop where
  | opened
      (o : ι)
      (free : s.owner = none) :
      Step capacity s (some (.opened o))
        { s with owner := some o, queue := [] }
  | closed
      (o : ι)
      (owns : s.owner = some o) :
      Step capacity s (some (.closed o))
        { s with owner := none, queue := [] }
  | delivered
      (o : ι)
      (b : β)
      (owns : s.owner = some o)
      (room : s.queue.length < capacity) :
      Step capacity s (some (.delivered o b))
        { s with queue := s.queue ++ [b] }
  | dropped
      (o : ι)
      (b : β)
      (owns : s.owner = some o)
      (full : ¬ s.queue.length < capacity) :
      Step capacity s (some (.dropped o b))
        { s with lost := Function.update s.lost o true }
  | took
      (o : ι)
      (b : β)
      (rest : List β)
      (owns : s.owner = some o)
      (head : s.queue = b :: rest) :
      Step capacity s (some (.took o b)) { s with queue := rest }
  | missed
      (o : ι)
      (nothing : s.owner = some o → s.queue = []) :
      Step capacity s (some (.missed o)) s
  | asked
      (o : ι) :
      Step capacity s (some (.asked o (s.lost o)))
        { s with lost := Function.update s.lost o false }
  | forgot
      (o : ι) :
      Step capacity s (some (.forgot o))
        { s with lost := Function.update s.lost o false }
  | stutter :
      Step capacity s none s

/-- Where no loss is noted, asking changes nothing. -/
theorem Step.asked_of_clear
    {capacity : Nat}
    {s : State ι β}
    {o : ι}
    (clear : s.lost o = false) :
    Step capacity s (some (.asked o false)) s := by
  have asked : Step capacity s _ _ := .asked o
  have same : Function.update s.lost o false = s.lost := by
    rw [← clear, Function.update_eq_self]
  rw [clear, same] at asked
  exact asked

/-- Runs of the box, with the labels of their steps. -/
inductive Run
    (capacity : Nat)
    (start : State ι β) : List (Label ι β) → State ι β → Prop where
  | nil :
      Run capacity start [] start
  | concat
      {past : List (Label ι β)}
      {s next : State ι β}
      {label : Option (Label ι β)}
      (ran : Run capacity start past s)
      (stepped : Step capacity s label next) :
      Run capacity start (past ++ label.toList) next

/-- What is in the box, if `o` has it. -/
def State.queueOf (s : State ι β) (o : ι) : List β :=
  if s.owner = some o then s.queue else []

/-- The history so far accounts for the box and for the notes of losses. -/
structure Accounts
    (past : List (Label ι β))
    (s : State ι β) : Prop where
  /-- nothing is in the box of nobody -/
  unowned : s.owner = none → s.queue = []
  /-- what `o` took and can take was delivered to it in that order -/
  own :
    ∀ o,
      (past.filterMap (Label.takenBy? o) ++ s.queueOf o).Sublist
        (past.filterMap (Label.deliveredTo? o))
  /-- since the owner opened the box nothing delivered is missing -/
  recent :
    ∀ o, s.owner = some o →
      (sinceOpened past).filterMap (Label.deliveredTo? o) =
        (sinceOpened past).filterMap (Label.takenBy? o) ++ s.queue
  lost : ∀ o, s.lost o = past.foldl (Label.losing o) false

/-- A box that was never opened. -/
theorem accounts_nil
    {s : State ι β}
    (unowned : s.owner = none)
    (empty : s.queue = [])
    (nothingLost : ∀ o, s.lost o = false) :
    Accounts [] s := by
  refine ⟨fun _ => empty, fun o => ?_, fun o owns => ?_, nothingLost⟩
  · simp [State.queueOf, unowned]
  · rw [unowned] at owns
    contradiction

/-- A step that leaves owner and queue alone and delivers and takes nothing. -/
theorem Accounts.quiet
    {past : List (Label ι β)}
    {s next : State ι β}
    {label : Label ι β}
    (accounts : Accounts past s)
    (owner : next.owner = s.owner)
    (queue : next.queue = s.queue)
    (closed : label.isOpened = false)
    (silent :
      ∀ o, label.deliveredTo? o = none ∧ label.takenBy? o = none)
    (lost : ∀ o, next.lost o = label.losing o (s.lost o)) :
    Accounts (past ++ [label]) next := by
  refine ⟨?_, fun o => ?_, fun o owns => ?_, fun o => ?_⟩
  · rw [owner, queue]
    exact accounts.unowned
  · simp only [State.queueOf, owner, queue, List.filterMap_append,
      List.filterMap_cons, (silent o).1, (silent o).2, List.filterMap_nil,
      List.append_nil]
    exact accounts.own o
  · rw [owner] at owns
    simp only [sinceOpened_concat, closed, Bool.false_eq_true, ↓reduceIte,
      List.filterMap_append, List.filterMap_cons, (silent o).1,
      (silent o).2, List.filterMap_nil, List.append_nil, queue]
    exact accounts.recent o owns
  · rw [lost, accounts.lost o, List.foldl_append]
    rfl

/-- Every step keeps the account. -/
theorem Accounts.step
    {capacity : Nat}
    {past : List (Label ι β)}
    {s next : State ι β}
    {label : Option (Label ι β)}
    (accounts : Accounts past s)
    (stepped : Step capacity s label next) :
    Accounts (past ++ label.toList) next := by
  have lostNow :
      ∀ (label : Label ι β), (∀ o, s.lost o = label.losing o (s.lost o)) →
        ∀ o, s.lost o =
          (past ++ [label]).foldl (Label.losing o) false := by
    intro label same o
    rw [List.foldl_append, ← accounts.lost o]
    exact same o
  cases stepped with
  | opened o free =>
      refine ⟨nofun, fun o' => ?_, fun o' _ => ?_, lostNow _ fun _ => rfl⟩
      · have before :=
          (List.sublist_append_left _ _).trans (accounts.own o')
        simpa [State.queueOf, List.filterMap_append, List.filterMap_cons,
          Label.takenBy?, Label.deliveredTo?] using before
      · simp [sinceOpened_concat, Label.isOpened]
  | closed o owns =>
      refine ⟨fun _ => rfl, fun o' => ?_, nofun, lostNow _ fun _ => rfl⟩
      have before :=
        (List.sublist_append_left _ _).trans (accounts.own o')
      simpa [State.queueOf, List.filterMap_append, List.filterMap_cons,
        Label.takenBy?, Label.deliveredTo?] using before
  | delivered o b owns room =>
      refine ⟨fun free => ?_, fun o' => ?_, fun o' owns' => ?_,
        lostNow _ fun _ => rfl⟩
      · rw [owns] at free
        contradiction
      · have before := accounts.own o'
        by_cases same : o = o'
        · subst same
          simp only [State.queueOf, owns, ↓reduceIte] at before
          simp only [State.queueOf, owns, ↓reduceIte, Option.toList_some,
            List.filterMap_append, List.filterMap_cons, Label.takenBy?,
            Label.deliveredTo?, List.filterMap_nil, List.append_nil,
            ← List.append_assoc]
          exact before.append (List.Sublist.refl [b])
        · have other : s.owner ≠ some o' := by
            rw [owns]
            exact fun isSame => same (Option.some.inj isSame)
          simpa [State.queueOf, other, same, List.filterMap_append,
            List.filterMap_cons, Label.takenBy?, Label.deliveredTo?] using before
      · have same : o = o' := Option.some.inj (owns.symm.trans owns')
        subst same
        simp [sinceOpened_concat, Label.isOpened, List.filterMap_append,
          Label.takenBy?, Label.deliveredTo?, accounts.recent o owns]
  | dropped o b owns full =>
      refine accounts.quiet rfl rfl rfl (fun _ => ⟨rfl, rfl⟩) fun o' => ?_
      by_cases same : o' = o
      · simp [Label.losing, same]
      · simp [Label.losing, same, Ne.symm same]
  | took o b rest owns head =>
      refine ⟨fun free => ?_, fun o' => ?_, fun o' owns' => ?_,
        lostNow _ fun _ => rfl⟩
      · rw [owns] at free
        contradiction
      · have before := accounts.own o'
        by_cases same : o = o'
        · subst same
          simpa [State.queueOf, owns, head, List.filterMap_append,
            List.filterMap_cons, Label.takenBy?, Label.deliveredTo?] using before
        · have other : s.owner ≠ some o' := by
            rw [owns]
            exact fun isSame => same (Option.some.inj isSame)
          simpa [State.queueOf, other, same, List.filterMap_append,
            List.filterMap_cons, Label.takenBy?, Label.deliveredTo?] using before
      · have same : o = o' := Option.some.inj (owns.symm.trans owns')
        subst same
        have before := accounts.recent o owns
        rw [head] at before
        simp [sinceOpened_concat, Label.isOpened, List.filterMap_append,
          Label.takenBy?, Label.deliveredTo?, before]
  | missed o nothing =>
      exact accounts.quiet rfl rfl rfl (fun _ => ⟨rfl, rfl⟩) fun _ => rfl
  | asked o | forgot o =>
      refine accounts.quiet rfl rfl rfl (fun _ => ⟨rfl, rfl⟩) fun o' => ?_
      by_cases same : o' = o
      · simp [Label.losing, same]
      · simp [Label.losing, same, Ne.symm same]
  | stutter =>
      simpa using accounts

/-- The account holds at the end of every run. -/
theorem Accounts.run
    {capacity : Nat}
    {start s : State ι β}
    {labels : List (Label ι β)}
    (accounts : Accounts [] start)
    (ran : Run capacity start labels s) :
    Accounts labels s := by
  induction ran with
  | nil =>
      exact accounts
  | concat ran stepped inductionHypothesis =>
      exact inductionHypothesis.step stepped

/-- Neither opens nor closes the box. -/
def Label.keepsOwner : Label ι β → Bool
  | .opened _ | .closed _ => false
  | _ => true

/-- While the box keeps its owner, what was in it and comes in is taken or left. -/
theorem Step.account
    {capacity : Nat}
    {s next : State ι β}
    {label : Option (Label ι β)}
    {o : ι}
    (stepped : Step capacity s label next)
    (owns : s.owner = some o)
    (keeps : ∀ shown ∈ label, shown.keepsOwner = true) :
    next.owner = some o ∧
      s.queue ++ label.toList.filterMap (Label.deliveredTo? o) =
        label.toList.filterMap (Label.takenBy? o) ++ next.queue := by
  cases stepped with
  | opened o' free =>
      exact absurd (keeps _ rfl) Bool.false_ne_true
  | closed o' owns' =>
      exact absurd (keeps _ rfl) Bool.false_ne_true
  | delivered o' b owns' room =>
      obtain rfl := Option.some.inj (owns.symm.trans owns')
      exact ⟨owns, by simp [Label.deliveredTo?, Label.takenBy?]⟩
  | took o' b rest owns' head =>
      obtain rfl := Option.some.inj (owns.symm.trans owns')
      exact ⟨owns, by simp [Label.deliveredTo?, Label.takenBy?, head]⟩
  | dropped o' b owns' full =>
      exact ⟨owns, List.append_nil s.queue⟩
  | missed o' nothing =>
      exact ⟨owns, List.append_nil s.queue⟩
  | asked o' | forgot o' =>
      exact ⟨owns, List.append_nil s.queue⟩
  | stutter =>
      exact ⟨owns, List.append_nil s.queue⟩

end SharedMailbox
