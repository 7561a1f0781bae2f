import KeyboardEmulator.ListeningPorts
import KeyboardEmulator.SharedMailbox

namespace KeyboardEmulator

open RingBuffer (Ring next distance)

/-!
# The shared receive buffer is a mailbox

The `SoftwareSerial` objects implement a mailbox that is lent to the listening
one: each of their steps, the handler's included, is a step of the mailbox or
none.
-/

namespace ListeningPorts

variable {ι : Type}

/-- The mailbox that buffer, active object and overflow flags make up. -/
def box (s : ListeningPorts ι) : SharedMailbox.State ι (BitVec 8) where
  owner := s.active
  queue := if s.active.isSome then s.ring.contents else []
  lost o := (s.objects o).bufferOverflow

/-- The step of the mailbox that an event shows. -/
def Event.label? : Event ι → Option (SharedMailbox.Label ι (BitVec 8))
  | .listening o => some (.opened o)
  | .stopped o => some (.closed o)
  | .cleared o => some (.forgot o)
  | .stored o d => some (.delivered o d)
  | .dropped o d => some (.dropped o d)
  | .readGave o ret =>
      if ret < 0 then some (.missed o)
      else some (.took o (BitVec.ofInt 8 ret))
  | .overflowGave o ret => some (.asked o ret)
  | .peekGave _ _ | .availableGave _ _ => none

def Event.isListening : Event ι → Bool
  | .listening _ => true
  | _ => false

/-- What the running method has read still says about the shared state. -/
def PositionOk (s : ListeningPorts ι) : CallAt ι → Prop
  | .stopTest p (some _) | .stopMask p _ _ | .stopActive p _ =>
      s.active = some p
  | .listenOverflow _ | .listenTail _ =>
      s.active = none
  | .listenHead _ =>
      s.active = none ∧ s.ring.wr = bufferStart
  | .listenThis _ =>
      s.active = none ∧ s.ring.Empty
  | .listenMask o _ | .readHead o | .peekHead o | .availableTail o =>
      s.active = some o
  | .readTail o head | .peekTail o head =>
      s.active = some o ∧ head = s.ring.rd
  | .readIndex o | .peekIndex o =>
      s.active = some o ∧ ¬ s.ring.Empty
  | .readCell o index | .peekCell o index =>
      s.active = some o ∧ index = s.ring.rd ∧ ¬ s.ring.Empty
  | .readNext o d =>
      s.active = some o ∧ d = s.ring.front ∧ ¬ s.ring.Empty
  | .readStore o d head =>
      s.active = some o ∧ head = s.ring.rd ∧ d = s.ring.front ∧
        ¬ s.ring.Empty
  | .availableHead o tail =>
      s.active = some o ∧ distance s.ring.rd tail ≤ s.ring.occupancy
  | .overflowClear o =>
      (s.objects o).bufferOverflow = true
  | _ =>
      True

/-- The mask bit of the active object is about to be set or just cleared. -/
def CallAt.masking : CallAt ι → Bool
  | .stopActive _ _ | .listenMask _ _ => true
  | _ => false

/-- What holds in every state. -/
structure Ok (s : ListeningPorts ι) : Prop where
  position : s.PositionOk s.location
  /-- a listening object hears its pin -/
  hears :
    ∀ o, s.active = some o → CallAt.masking s.location = false →
      s.mask o = true

/-- While no object listens the buffer is not looked at. -/
theorem box_unowned
    {s after : ListeningPorts ι}
    (free : s.active = none)
    (active : after.active = s.active)
    (objects : after.objects = s.objects) :
    after.box = s.box := by
  simp [box, active, objects, free]

/-- The queue of the mailbox while an object listens. -/
theorem queue_of_active
    {s : ListeningPorts ι}
    {o : ι}
    (owns : s.active = some o) :
    s.box.queue = s.ring.contents := by
  simp [box, owns]

/-- Objects just constructed: none is active, and none has lost anything. -/
structure Constructed (s : ListeningPorts ι) : Prop where
  client : s.idle = true
  inactive : s.active = none
  noOverflow : ∀ o, (s.objects o).bufferOverflow = false

theorem Constructed.ok
    {s : ListeningPorts ι}
    (constructed : s.Constructed) :
    s.Ok := by
  refine ⟨?_, fun o owns => ?_⟩
  · have idle := constructed.client
    rw [ListeningPorts.idle] at idle
    cases here : s.location <;> rw [here] at idle <;>
      first | contradiction | trivial
  · rw [constructed.inactive] at owns
    contradiction

/-- What a call has read stays true while the handler stores a byte. -/
theorem PositionOk.store
    {s after : ListeningPorts ι}
    {o : ι}
    (position : s.PositionOk s.location)
    (owns : s.active = some o)
    {d : BitVec 8}
    (room : ¬ s.ring.Full)
    (active : after.active = s.active)
    (objects : after.objects = s.objects)
    (ring : after.ring = (s.ring.fill d).commit)
    (location : after.location = s.location) :
    after.PositionOk after.location := by
  have head : after.ring.rd = s.ring.rd := by
    rw [ring]
    rfl
  have nonempty : ¬ after.ring.Empty := by
    rw [ring]
    exact Ring.not_empty_commit room
  have front : ¬ s.ring.Empty → after.ring.front = s.ring.front := by
    intro waiting
    rw [ring]
    exact Ring.front_fill_commit waiting d
  have longer : after.ring.occupancy = s.ring.occupancy + 1 := by
    rw [ring]
    exact Ring.occupancy_commit room
  rw [location]
  cases here : s.location with
  | stopTest p opening =>
      rw [here] at position
      cases opening with
      | none =>
          trivial
      | some q =>
          exact Eq.trans active position
  | stopMask p opening loaded | stopActive p opening
  | listenMask p loaded | readHead p | peekHead p | availableTail p =>
      rw [here] at position
      exact Eq.trans active position
  | listenOverflow p | listenTail p =>
      rw [here] at position
      have free : s.active = none := position
      rw [owns] at free
      contradiction
  | listenHead p | listenThis p =>
      rw [here] at position
      have free : s.active = none := position.1
      rw [owns] at free
      contradiction
  | readTail p index | peekTail p index =>
      rw [here] at position
      exact ⟨active.trans position.1, position.2.trans head.symm⟩
  | readIndex p | peekIndex p =>
      rw [here] at position
      exact ⟨active.trans position.1, nonempty⟩
  | readCell p index | peekCell p index =>
      rw [here] at position
      exact ⟨active.trans position.1, position.2.1.trans head.symm, nonempty⟩
  | readNext p c =>
      rw [here] at position
      exact ⟨active.trans position.1,
        position.2.1.trans (front position.2.2).symm, nonempty⟩
  | readStore p c index =>
      rw [here] at position
      exact ⟨active.trans position.1, position.2.1.trans head.symm,
        position.2.2.1.trans (front position.2.2.2).symm, nonempty⟩
  | availableHead p tail =>
      rw [here] at position
      refine ⟨active.trans position.1, ?_⟩
      rw [head, longer]
      exact Nat.le_succ_of_le position.2
  | overflowClear p =>
      rw [here] at position
      rw [PositionOk, objects]
      exact position
  | _ =>
      trivial

variable [DecidableEq ι]

/-- A step of the objects is a step of the mailbox. -/
structure Refines
    (s : ListeningPorts ι)
    (result : ListeningPorts ι × List (Event ι)) : Prop where
  ok : result.1.Ok
  box :
    ∃ label,
      SharedMailbox.Step 63 s.box label result.1.box ∧
        result.2.filterMap Event.label? = label.toList

variable {s after : ListeningPorts ι} {o : ι} {events : List (Event ι)}

/-- The call moves on and nothing happens to the mailbox. -/
theorem Refines.stays
    (same : after.box = s.box)
    (target : after.PositionOk after.location)
    (hears :
      ∀ o, after.active = some o →
        CallAt.masking after.location = false → after.mask o = true)
    (silent : events.filterMap Event.label? = []) :
    Refines s (after, events) := by
  refine ⟨⟨target, hears⟩, none, ?_, silent⟩
  rw [same]
  exact .stutter

/-- Only the position changes, between two places that do not mask. -/
theorem Refines.goes
    (ok : s.Ok)
    (outside : CallAt.masking s.location = false)
    (there : CallAt ι)
    (target : s.PositionOk there)
    (silent : events.filterMap Event.label? = []) :
    Refines s ({ s with location := there }, events) :=
  .stays rfl (by cases there <;> exact target)
    (fun o owns _ => ok.hears o owns outside) silent

/-! ## The methods -/

/-- Other flags and the receive side stay as they are. -/
theorem bufferOverflow_modify
    (s : ListeningPorts ι)
    (o p : ι)
    (change : SoftwareSerial → SoftwareSerial) :
    (s.modify o change p).bufferOverflow =
      if p = o then (change (s.objects o)).bufferOverflow
      else (s.objects p).bufferOverflow := by
  rw [modify, Function.update_apply]
  split <;> rfl

theorem bufferOverflow_tuneDelays
    (object : SoftwareSerial)
    (gccVersion speed : Nat) :
    (object.tuneDelays gccVersion speed).bufferOverflow =
      object.bufferOverflow := by
  rw [SoftwareSerial.tuneDelays, SoftwareSerial.beginDelays]
  split <;> rfl

/-- The mailbox does not depend on the delays. -/
theorem box_modify
    (change : SoftwareSerial → SoftwareSerial)
    (same : after.active = s.active ∧ after.ring = s.ring)
    (objects : after.objects = s.modify o change)
    (kept :
      (change (s.objects o)).bufferOverflow =
        (s.objects o).bufferOverflow) :
    after.box = s.box := by
  have lost :
      (fun p => (after.objects p).bufferOverflow) =
        fun p => (s.objects p).bufferOverflow := by
    funext p
    rw [objects, bufferOverflow_modify]
    split
    next isSame =>
      rw [kept, isSame]
    next =>
      rfl
  simp only [box, same.1, same.2, lost]

/-- The client calls a method. -/
theorem Refines.enter
    (ok : s.Ok)
    (idle : s.idle = true)
    (o : ι)
    (method : Method) :
    Refines s (s.enter o method, []) := by
  have outside : CallAt.masking s.location = false := by
    rw [ListeningPorts.idle] at idle
    cases here : s.location <;> rw [here] at idle <;>
      first | rfl | contradiction
  cases method with
  | begin speed =>
      exact .stays
        (box_modify SoftwareSerial.zeroDelays ⟨rfl, rfl⟩ rfl rfl) trivial
        (fun o owns _ => ok.hears o owns outside) rfl
  | _ =>
      exact .goes ok outside _ trivial rfl

/-- The note of a loss is taken away. -/
theorem box_forget
    (same :
      after.active = s.active ∧ after.ring = s.ring)
    (objects :
      after.objects = s.modify o ({ · with bufferOverflow := false })) :
    after.box =
      { s.box with lost := Function.update s.box.lost o false } := by
  have lost :
      (fun p => (after.objects p).bufferOverflow) =
        Function.update (fun p => (s.objects p).bufferOverflow) o false := by
    funext p
    rw [objects, bufferOverflow_modify, Function.update_apply]
  simp only [box, same.1, same.2, lost]

/-- `begin` and `listen`. -/
theorem Refines.listenStep
    (ok : s.Ok)
    (here :
      s.location matches .beginDelays _ _ | .listenStopbit _
        | .listenActive _ | .listenOverflow _ | .listenTail _
        | .listenHead _ | .listenThis _ | .listenMask _ _) :
    Refines s (s.listenStep s.location) := by
  have position := ok.position
  cases location : s.location with
  | beginDelays o speed =>
      have outside : CallAt.masking s.location = false := by rw [location]; rfl
      exact .stays
        (box_modify (·.tuneDelays s.gccVersion speed) ⟨rfl, rfl⟩ rfl
          (bufferOverflow_tuneDelays _ _ _))
        trivial (fun o owns _ => ok.hears o owns outside) rfl
  | listenStopbit o =>
      have outside : CallAt.masking s.location = false := by rw [location]; rfl
      rw [ListeningPorts.listenStep]
      split
      · exact .goes ok outside _ trivial rfl
      · exact .goes ok outside _ trivial rfl
  | listenActive o =>
      have outside : CallAt.masking s.location = false := by rw [location]; rfl
      simp only [ListeningPorts.listenStep]
      split
      next free =>
        exact .goes ok outside _ free rfl
      next p owns =>
        split
        · exact .goes ok outside _ trivial rfl
        · exact .goes ok outside _ owns rfl
  | listenOverflow o =>
      rw [location] at position
      have free : s.active = none := position
      refine ⟨⟨free, fun p owns => ?_⟩, some (.forgot o), ?_, rfl⟩
      · rw [show (s.listenStep (.listenOverflow o)).1.active = none
          from free] at owns
        contradiction
      · have forgets :
            (s.listenStep (.listenOverflow o)).1.box =
              { s.box with lost := Function.update s.box.lost o false } :=
          box_forget ⟨rfl, rfl⟩ rfl
        rw [forgets]
        exact .forgot o
  | listenTail o =>
      rw [location] at position
      have free : s.active = none := position
      refine .stays (box_unowned free rfl rfl) ⟨free, rfl⟩ ?_ rfl
      exact fun p owns => by rw [free] at owns; contradiction
  | listenHead o =>
      rw [location] at position
      obtain ⟨free, tail⟩ := position
      refine .stays (box_unowned free rfl rfl) ⟨free, tail.symm⟩ ?_ rfl
      exact fun p owns => by rw [free] at owns; contradiction
  | listenThis o =>
      rw [location] at position
      obtain ⟨free, empty⟩ := position
      refine ⟨⟨rfl, nofun⟩, some (.opened o), ?_, rfl⟩
      have opens :
          (s.listenStep (.listenThis o)).1.box =
            { s.box with owner := some o, queue := [] } := by
        have nothing : s.ring.contents = [] :=
          Ring.contents_eq_nil_iff.mpr empty
        simp [ListeningPorts.listenStep, ListeningPorts.box, nothing]
      rw [opens]
      exact .opened o free
  | listenMask o loaded =>
      rw [location] at position
      have owns : s.active = some o := position
      cases loaded with
      | none =>
          exact .stays rfl owns nofun rfl
      | some bits =>
          refine .stays rfl trivial (fun p listens _ => ?_) rfl
          have same : p = o := Option.some.inj (listens.symm.trans owns)
          rw [same]
          exact Function.update_self o true bits
  | _ =>
      rw [location] at here
      contradiction

/-- `stopListening`. -/
theorem Refines.stopStep
    (ok : s.Ok)
    (here :
      s.location matches .stopTest _ _ | .stopMask _ _ _ | .stopActive _ _) :
    Refines s (s.stopStep s.location) := by
  have position := ok.position
  cases location : s.location with
  | stopTest p opening =>
      have outside : CallAt.masking s.location = false := by rw [location]; rfl
      rw [location] at position
      rw [ListeningPorts.stopStep]
      split
      next owns =>
        exact .goes ok outside _ owns rfl
      next other =>
        cases opening with
        | none =>
            exact .goes ok outside _ trivial rfl
        | some o =>
            exact (other position).elim
  | stopMask p opening loaded =>
      have outside : CallAt.masking s.location = false := by rw [location]; rfl
      rw [location] at position
      cases loaded with
      | none =>
          exact .goes ok outside _ position rfl
      | some bits =>
          exact .stays rfl position nofun rfl
  | stopActive p opening =>
      rw [location] at position
      have owns : s.active = some p := position
      refine ⟨⟨?_, nofun⟩, some (.closed p), ?_, rfl⟩
      · cases opening <;> trivial
      · exact .closed p owns
  | _ =>
      rw [location] at here
      contradiction

/-- An attempt that finds the object not listening, or nothing to read. -/
theorem missed_of_active
    (nothing : s.active = some o → s.ring.Empty) :
    SharedMailbox.Step 63 s.box (some (.missed o)) s.box := by
  refine .missed o fun owns => ?_
  have listens : s.active = some o := owns
  rw [queue_of_active listens]
  exact Ring.contents_eq_nil_iff.mpr (nothing listens)

/-- `read`. -/
theorem Refines.readStep
    (ok : s.Ok)
    (here :
      s.location matches .readTest _ | .readHead _ | .readTail _ _
        | .readIndex _ | .readCell _ _ | .readNext _ _
        | .readStore _ _ _) :
    Refines s (s.readStep s.location) := by
  have position := ok.position
  have outside : CallAt.masking s.location = false := by
    cases location : s.location <;> rw [location] at here <;>
      first | rfl | contradiction
  have hears := fun o owns (_ : CallAt.masking (.client : CallAt ι) = false) =>
    ok.hears o owns outside
  cases location : s.location with
  | readTest o =>
      rw [ListeningPorts.readStep]
      split
      next owns =>
        exact .goes ok outside _ owns rfl
      next other =>
        exact ⟨⟨trivial, hears⟩, _,
          missed_of_active (fun owns => (other owns).elim), rfl⟩
  | readHead o =>
      rw [location] at position
      exact .goes ok outside _ ⟨position, rfl⟩ rfl
  | readTail o head =>
      rw [location] at position
      obtain ⟨owns, rfl⟩ := position
      rw [ListeningPorts.readStep]
      split
      next empty =>
        exact ⟨⟨trivial, hears⟩, _, missed_of_active (fun _ => empty), rfl⟩
      next nonempty =>
        exact .goes ok outside _ ⟨owns, nonempty⟩ rfl
  | readIndex o =>
      rw [location] at position
      exact .goes ok outside _ ⟨position.1, rfl, position.2⟩ rfl
  | readCell o index =>
      rw [location] at position
      obtain ⟨owns, rfl, nonempty⟩ := position
      exact .goes ok outside _ ⟨owns, rfl, nonempty⟩ rfl
  | readNext o d =>
      rw [location] at position
      exact .goes ok outside _ ⟨position.1, rfl, position.2⟩ rfl
  | readStore o d head =>
      rw [location] at position
      obtain ⟨owns, rfl, rfl, nonempty⟩ := position
      have notNegative : ¬ ((s.ring.front.toNat : Int) < 0) := by omega
      refine ⟨⟨trivial, hears⟩, some (.took o s.ring.front), ?_, ?_⟩
      · have took :
            (s.readStep (.readStore o s.ring.front s.ring.rd)).1.box =
              { s.box with queue := s.ring.release.contents } := by
          simp [ListeningPorts.readStep, ListeningPorts.box, owns,
            Ring.release]
        rw [took]
        exact .took o _ _ owns
          ((queue_of_active owns).trans (Ring.contents_release nonempty))
      · simp [ListeningPorts.readStep, Event.label?, notNegative]
  | _ =>
      rw [location] at here
      contradiction

/-- `peek`. -/
theorem Refines.peekStep
    (ok : s.Ok)
    (here :
      s.location matches .peekTest _ | .peekHead _ | .peekTail _ _
        | .peekIndex _ | .peekCell _ _) :
    Refines s (s.peekStep s.location) := by
  have position := ok.position
  have outside : CallAt.masking s.location = false := by
    cases location : s.location <;> rw [location] at here <;>
      first | rfl | contradiction
  cases location : s.location with
  | peekTest o =>
      rw [ListeningPorts.peekStep]
      split
      next owns =>
        exact .goes ok outside _ owns rfl
      next =>
        exact .goes ok outside _ trivial rfl
  | peekHead o =>
      rw [location] at position
      exact .goes ok outside _ ⟨position, rfl⟩ rfl
  | peekTail o head =>
      rw [location] at position
      obtain ⟨owns, rfl⟩ := position
      rw [ListeningPorts.peekStep]
      split
      next =>
        exact .goes ok outside _ trivial rfl
      next nonempty =>
        exact .goes ok outside _ ⟨owns, nonempty⟩ rfl
  | peekIndex o =>
      rw [location] at position
      exact .goes ok outside _ ⟨position.1, rfl, position.2⟩ rfl
  | peekCell o index =>
      exact .goes ok outside _ trivial rfl
  | _ =>
      rw [location] at here
      contradiction

/-- `available` and `overflow`. -/
theorem Refines.statusStep
    (ok : s.Ok)
    (here :
      s.location matches .availableTest _ | .availableTail _
        | .availableHead _ _ | .overflowTest _ | .overflowClear _) :
    Refines s (s.statusStep s.location) := by
  have position := ok.position
  have outside : CallAt.masking s.location = false := by
    cases location : s.location <;> rw [location] at here <;>
      first | rfl | contradiction
  have hears := fun o owns (_ : CallAt.masking (.client : CallAt ι) = false) =>
    ok.hears o owns outside
  cases location : s.location with
  | availableTest o =>
      rw [ListeningPorts.statusStep]
      split
      next owns =>
        exact .goes ok outside _ owns rfl
      next =>
        exact .goes ok outside _ trivial rfl
  | availableTail o =>
      rw [location] at position
      exact .goes ok outside _ ⟨position, Nat.le_refl _⟩ rfl
  | availableHead o tail =>
      exact .goes ok outside _ trivial rfl
  | overflowTest o =>
      rw [ListeningPorts.statusStep]
      split
      next noted =>
        exact .goes ok outside _ noted rfl
      next notNoted =>
        have clear : s.box.lost o = false :=
          Bool.not_eq_true _ ▸ notNoted
        exact ⟨⟨trivial, hears⟩, _, .asked_of_clear clear, rfl⟩
  | overflowClear o =>
      rw [location] at position
      have noted : s.box.lost o = true := position
      have forgets :
          (s.statusStep (.overflowClear o)).1.box =
            { s.box with lost := Function.update s.box.lost o false } :=
        box_forget ⟨rfl, rfl⟩ rfl
      refine ⟨⟨trivial, hears⟩, some (.asked o true), ?_, rfl⟩
      rw [forgets, ← noted]
      exact .asked o
  | _ =>
      rw [location] at here
      contradiction

/-! ## The handler -/

/-- What a call has read stays true while the handler notes an overflow. -/
theorem PositionOk.note
    (position : s.PositionOk s.location)
    (active : after.active = s.active)
    (ring : after.ring = s.ring)
    (objects :
      after.objects = s.modify o ({ · with bufferOverflow := true }))
    (location : after.location = s.location) :
    after.PositionOk after.location := by
  rw [location]
  cases here : s.location with
  | overflowClear p =>
      rw [here] at position
      rw [PositionOk, objects, bufferOverflow_modify]
      split
      · rfl
      · exact position
  | stopTest p opening =>
      rw [here] at position
      cases opening with
      | none =>
          trivial
      | some q =>
          exact Eq.trans active position
  | _ =>
      rw [here] at position
      first
        | trivial
        | simpa only [PositionOk, active, ring] using position

/-- `recv` with room in the buffer. -/
theorem recv_of_room
    {startLevel : Bool}
    {samples : Vector Bool 8}
    (start : (s.objects o).startBit startLevel = true)
    (room : ¬ s.ring.Full) :
    s.recv o startLevel samples =
      ({ s with
          ring := (s.ring.fill ((s.objects o).received samples)).commit
          mask := Function.update s.mask o true },
        [.stored o ((s.objects o).received samples)]) := by
  have apart : next s.ring.wr ≠ s.ring.rd := room
  simp only [recv, start, ↓reduceIte, storeReceived, if_pos apart,
    Function.update_idem]

/-- `recv` with a full buffer. -/
theorem recv_of_full
    {startLevel : Bool}
    {samples : Vector Bool 8}
    (start : (s.objects o).startBit startLevel = true)
    (full : s.ring.Full) :
    s.recv o startLevel samples =
      ({ s with
          objects := s.modify o ({ · with bufferOverflow := true })
          mask := Function.update s.mask o true },
        [.dropped o ((s.objects o).received samples)]) := by
  have meets : ¬ next s.ring.wr ≠ s.ring.rd := not_not.mpr full
  simp only [recv, start, ↓reduceIte, storeReceived, if_neg meets,
    Function.update_idem]
  rfl

/-- `recv` of the listening object. -/
theorem Refines.recv
    (ok : s.Ok)
    (owns : s.active = some o)
    (startLevel : Bool)
    (samples : Vector Bool 8) :
    Refines s (s.recv o startLevel samples) := by
  have hears :
      ∀ (mask : ι → Bool) p, s.active = some p →
        Function.update mask o true p = true := by
    intro mask p listens
    have same : p = o := Option.some.inj (listens.symm.trans owns)
    rw [same]
    exact Function.update_self o true mask
  by_cases start : (s.objects o).startBit startLevel = true
  · by_cases full : s.ring.Full
    · rw [recv_of_full start full]
      refine ⟨⟨ok.position.note rfl rfl rfl rfl,
        fun p listens _ => hears s.mask p listens⟩, some (.dropped o _), ?_,
        rfl⟩
      have notes :
          (fun p =>
              (s.modify o ({ · with bufferOverflow := true }) p).bufferOverflow) =
            Function.update s.box.lost o true := by
        funext p
        rw [bufferOverflow_modify, Function.update_apply]
        rfl
      have noRoom : ¬ s.box.queue.length < 63 := by
        have occupied := Ring.full_iff_occupancy.mp full
        rw [queue_of_active owns, Ring.length_contents]
        omega
      have dropped :=
        SharedMailbox.Step.dropped o ((s.objects o).received samples) owns
          noRoom
      rw [← notes] at dropped
      exact dropped
    · rw [recv_of_room start full]
      refine ⟨⟨ok.position.store owns full rfl rfl rfl rfl,
        fun p listens _ => hears s.mask p listens⟩, some (.delivered o _), ?_,
        rfl⟩
      have room : s.box.queue.length < 63 := by
        have apart := mt Ring.full_iff_occupancy.mpr full
        have bound := s.ring.occupancy_lt
        rw [queue_of_active owns, Ring.length_contents]
        omega
      have delivered :=
        SharedMailbox.Step.delivered o ((s.objects o).received samples) owns
          room
      rw [queue_of_active owns, ← Ring.contents_fill_commit full] at delivered
      simpa [ListeningPorts.box, owns] using delivered
  · rw [ListeningPorts.recv, if_neg start]
    exact ⟨ok, none, .stutter, rfl⟩

/-- One step of the call. -/
theorem Refines.runStep
    (ok : s.Ok) :
    Refines s s.runStep := by
  rw [ListeningPorts.runStep]
  cases here : s.location with
  | client =>
      exact ⟨ok, none, .stutter, rfl⟩
  | beginDelays o speed | listenStopbit o | listenActive o
  | listenOverflow o | listenTail o | listenHead o | listenThis o
  | listenMask o loaded =>
      have refines := Refines.listenStep ok (by rw [here])
      rw [here] at refines
      exact refines
  | stopTest p opening | stopMask p opening loaded
  | stopActive p opening =>
      have refines := Refines.stopStep ok (by rw [here])
      rw [here] at refines
      exact refines
  | readTest o | readHead o | readTail o head | readIndex o
  | readCell o index | readNext o d | readStore o d head =>
      have refines := Refines.readStep ok (by rw [here])
      rw [here] at refines
      exact refines
  | peekTest o | peekHead o | peekTail o head | peekIndex o
  | peekCell o index =>
      have refines := Refines.peekStep ok (by rw [here])
      rw [here] at refines
      exact refines
  | availableTest o | availableTail o | availableHead o tail
  | overflowTest o | overflowClear o =>
      have refines := Refines.statusStep ok (by rw [here])
      rw [here] at refines
      exact refines

/-- Every step of the objects is a step of the mailbox. -/
theorem Refines.step?
    {action : Action ι}
    {result : ListeningPorts ι × List (Event ι)}
    (ok : s.Ok)
    (stepped : s.step? action = some result) :
    Refines s result := by
  cases action with
  | call o method =>
      rw [ListeningPorts.step?] at stepped
      split at stepped
      next idle =>
        cases stepped
        exact .enter ok idle o method
      next =>
        contradiction
  | run =>
      rw [ListeningPorts.step?] at stepped
      split at stepped
      next =>
        contradiction
      next =>
        cases stepped
        exact .runStep ok
  | pinChange startLevel samples =>
      cases stepped
      rw [handleInterrupt]
      split
      next o owns =>
        exact .recv ok owns startLevel samples
      next =>
        exact ⟨ok, none, .stutter, rfl⟩

/-! ## Runs -/

/-- The mailbox has run through the labels of the events so far. -/
structure Follows
    (start : ListeningPorts ι)
    (past : List (Event ι))
    (s : ListeningPorts ι) : Prop where
  ok : s.Ok
  ran :
    SharedMailbox.Run 63 start.box (past.filterMap Event.label?) s.box

theorem follows_of_run
    {start : ListeningPorts ι}
    {actions : List (Action ι)}
    (ok : start.Ok)
    (ran : start.run? actions = some (s, events)) :
    Follows start events s := by
  have begins : Follows start [] start := ⟨ok, .nil⟩
  refine
    LabelledRun.run?_history (Follows start)
      (fun {past state next action emitted} follows stepped => ?_) begins ran
  have refines := Refines.step? follows.ok stepped
  obtain ⟨label, boxStep, emits⟩ := refines.box
  refine ⟨refines.ok, ?_⟩
  rw [List.filterMap_append, emits]
  exact follows.ran.concat boxStep

/-- The bytes that `read` of an object returned. -/
def Event.readBy? (o : ι) : Event ι → Option (BitVec 8)
  | .readGave o' ret =>
      if o' = o ∧ ¬ ret < 0 then some (BitVec.ofInt 8 ret) else none
  | _ => none

/-- The bytes that the handler stored for an object. -/
def Event.storedBy? (o : ι) : Event ι → Option (BitVec 8)
  | .stored o' d => if o' = o then some d else none
  | _ => none

theorem filterMap_takenBy (o : ι) (events : List (Event ι)) :
    (events.filterMap Event.label?).filterMap
        (SharedMailbox.Label.takenBy? o) =
      events.filterMap (Event.readBy? o) := by
  rw [List.filterMap_filterMap]
  congr 1
  funext event
  cases event with
  | readGave o' ret =>
      by_cases missed : ret < 0 <;>
        simp [Event.label?, Event.readBy?, SharedMailbox.Label.takenBy?, missed]
  | _ =>
      rfl

theorem filterMap_deliveredTo (o : ι) (events : List (Event ι)) :
    (events.filterMap Event.label?).filterMap
        (SharedMailbox.Label.deliveredTo? o) =
      events.filterMap (Event.storedBy? o) := by
  rw [List.filterMap_filterMap]
  congr 1
  funext event
  cases event with
  | readGave o' ret =>
      by_cases missed : ret < 0 <;>
        simp [Event.label?, Event.storedBy?,
          SharedMailbox.Label.deliveredTo?, missed]
  | _ =>
      rfl

/-- Two objects on the last two pins, just constructed. -/
def twoPorts : ListeningPorts Bool where
  objects o :=
    SoftwareSerial.onPin
      (if o then Fin.last 19 else Fin.castSucc (Fin.last 18))
  active := none
  ring :=
    { cells := Vector.replicate 64 0, rd := bufferStart, wr := bufferStart }
  mask _ := false
  gccVersion := 40902
  location := .client

theorem twoPorts_constructed : twoPorts.Constructed :=
  ⟨rfl, rfl, fun _ => rfl⟩

end ListeningPorts

end KeyboardEmulator
