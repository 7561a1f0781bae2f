import KeyboardEmulator.HostSession
import KeyboardEmulator.LineRate
import KeyboardEmulator.SoftwareSerialWire

namespace KeyboardEmulator

open BootKeyboard (Byte typed)
open RingBuffer (Ring)
open SerialFrame (Frame Paced Spaced)

/-!
# From the wire to the host

The delays that `uart.begin` computed stay what they are, so in every run the
receptions are those of an object that listens at 9600 baud.  What a sender puts
on the line is then what the host types, byte for byte.
-/

namespace SoftwareSerial

/-- `begin` computes the delays from the speed and the compiler version only. -/
theorem tuneDelays_idem
    (object : SoftwareSerial)
    (gccVersion speed : Nat) :
    (object.tuneDelays gccVersion speed).tuneDelays gccVersion speed =
      object.tuneDelays gccVersion speed := by
  rw [tuneDelays, tuneDelays, beginDelays, beginDelays]
  split <;> rfl

theorem tuneDelays_overflow
    {object : SoftwareSerial}
    {gccVersion speed : Nat}
    (tuned : object.tuneDelays gccVersion speed = object)
    (overflow : Bool) :
    { object with bufferOverflow := overflow }.tuneDelays gccVersion speed =
      { object with bufferOverflow := overflow } := by
  conv_rhs => rw [← tuned]
  rw [tuneDelays, tuneDelays, beginDelays, beginDelays]
  split <;> rfl

theorem tuneDelays_mask
    {object : SoftwareSerial}
    {gccVersion speed : Nat}
    (tuned : object.tuneDelays gccVersion speed = object)
    (reg : Reg)
    (value : BitVec 8) :
    { object with
        pcintMaskreg := reg
        pcintMaskvalue := value }.tuneDelays gccVersion speed =
      { object with
        pcintMaskreg := reg
        pcintMaskvalue := value } := by
  conv_rhs => rw [← tuned]
  rw [tuneDelays, tuneDelays, beginDelays, beginDelays]
  split <;> rfl

end SoftwareSerial

namespace Machine

/-- The delays of the object are those of 9600 baud. -/
def Tuned (m : Machine) : Prop :=
  m.uart.tuneDelays m.gccVersion 9600 = m.uart

/-- They are from the call of `uart.begin` on. -/
def TunedOnceBegun (m : Machine) : Prop :=
  m.pc.target.returned = true → m.Tuned

variable {m after : Machine}

theorem Tuned.of_eq
    (tuned : m.Tuned)
    (uart : after.uart = m.uart)
    (gccVersion : after.gccVersion = m.gccVersion) :
    after.Tuned := by
  rw [Tuned, uart, gccVersion]
  exact tuned

theorem Tuned.codeStep
    (tuned : m.Tuned)
    (todo : List Access)
    (loaded : Option Byte)
    (continuation : Pos) :
    (m.codeStep todo loaded continuation).Tuned := by
  cases todo with
  | nil =>
      exact tuned.of_eq rfl rfl
  | cons access rest =>
      cases access with
      | clearOverflow =>
          exact SoftwareSerial.tuneDelays_overflow tuned false
      | setPcintMask reg value =>
          exact SoftwareSerial.tuneDelays_mask tuned reg value
      | modify reg keep set =>
          cases loaded <;> exact tuned.of_eq rfl rfl
      | _ =>
          exact tuned.of_eq rfl rfl

theorem target_codeStep
    (m : Machine)
    (todo : List Access)
    (loaded : Option Byte)
    (continuation : Pos) :
    (m.codeStep todo loaded continuation).pc.target = continuation := by
  cases todo with
  | nil =>
      rfl
  | cons access rest =>
      cases access with
      | modify reg keep set =>
          cases loaded <;> rfl
      | _ =>
          rfl

theorem TunedOnceBegun.setupStep
    (tuned : m.TunedOnceBegun)
    {position : Pos}
    (pc : m.pc = .here position) :
    (m.setupStep position).TunedOnceBegun := by
  intro returned
  cases position with
  | construct | init | serialBegin =>
      contradiction
  | uartBegin =>
      have fits : SoftwareSerial.bitDelay 9600 * 3 < 65536 := by
        decide
      simp only [Machine.setupStep, Tuned]
      rw [← SoftwareSerial.tuneDelays_eq m.uart m.gccVersion fits]
      exact SoftwareSerial.tuneDelays_idem _ _ _
  | setTimeout =>
      have here : m.Tuned := tuned (by rw [pc]; rfl)
      exact here.of_eq rfl rfl
  | _ =>
      exact tuned returned

/-- In its loop main leaves the object alone. -/
theorem Tuned.loopStep
    (tuned : m.Tuned)
    (position : Pos) :
    (m.pollStep position).Tuned ∧ (m.readStep position).1.Tuned ∧
      (m.sendStep position).1.Tuned := by
  have same :
      ∀ {after : Machine}, after.uart = m.uart →
        after.gccVersion = m.gccVersion → after.Tuned :=
    fun uart gccVersion => tuned.of_eq uart gccVersion
  cases position with
  | loopHead | availHead tail =>
      refine ⟨?_, same rfl rfl, same rfl rfl⟩
      rw [Machine.pollStep]
      split <;> exact same rfl rfl
  | readHead | readTail head =>
      refine ⟨same rfl rfl, ?_, same rfl rfl⟩
      rw [Machine.readStep]
      split <;> exact same rfl rfl
  | print command buffer n =>
      refine ⟨same rfl rfl, same rfl rfl, ?_⟩
      cases buffer <;> cases command <;> exact same rfl rfl
  | write command rest n c position =>
      refine ⟨same rfl rfl, same rfl rfl, ?_⟩
      cases position with
      | compareTail | testUdre | spin | spinSreg | spinUdre =>
          simp only [Machine.sendStep, Machine.writeStep]
          split <;> exact same rfl rfl
      | fastUcsra loaded | slowUcsrb loaded =>
          cases loaded <;> exact same rfl rfl
      | _ =>
          exact same rfl rfl
  | _ =>
      exact ⟨same rfl rfl, same rfl rfl, same rfl rfl⟩

theorem TunedOnceBegun.mainStep
    (tuned : m.TunedOnceBegun) :
    m.mainStep.1.TunedOnceBegun := by
  rw [Machine.mainStep]
  cases pc : m.pc with
  | code todo loaded continuation =>
      intro returned
      rw [target_codeStep] at returned
      have here : m.Tuned := tuned (by rw [pc]; exact returned)
      exact here.codeStep todo loaded continuation
  | here position =>
      have looping :
          position.returned = true →
            (m.pollStep position).Tuned ∧ (m.readStep position).1.Tuned ∧
              (m.sendStep position).1.Tuned :=
        fun returned =>
          Tuned.loopStep (tuned (by rw [pc]; exact returned)) position
      cases position <;> dsimp only
      case construct | init | serialBegin | uartBegin | setTimeout =>
          exact .setupStep tuned pc
      case loopHead | availHead =>
          exact fun _ => (looping rfl).1
      case readHead | readTail | readIndex | readCell | readNext
          | readStore =>
          exact fun _ => (looping rfl).2.1
      case translate | sendKey | print | write =>
          exact fun _ => (looping rfl).2.2

theorem TunedOnceBegun.step?
    {action : Action}
    {result : Machine × List Event}
    (tuned : m.TunedOnceBegun)
    (stepped : m.step? action = some result) :
    result.1.TunedOnceBegun := by
  cases step?_inversion stepped with
  | main =>
      exact tuned.mainStep
  | pinChange _ _ startLevel samples =>
      intro returned
      rw [(step?_frame stepped (by simp)).pc] at returned
      have here := tuned returned
      simp only [interrupt, handleInterrupt]
      split
      · rw [recv]
        split
        · simp only [storeReceived]
          split
          · exact here.of_eq rfl rfl
          · exact SoftwareSerial.tuneDelays_overflow here true
        · exact here.of_eq rfl rfl
      · exact here.of_eq rfl rfl
  | dataRegisterEmpty | shiftOut =>
      exact fun returned => (tuned returned).of_eq rfl rfl
  | usartReceive _ _ c parityError =>
      intro returned
      rw [(step?_frame stepped (by simp)).pc] at returned
      have here := tuned returned
      simp only [interrupt, rxCompleteIrq]
      split
      · split <;> exact here.of_eq rfl rfl
      · exact here.of_eq rfl rfl

/-- When `uart.begin` returns the object is tuned to 9600 baud. -/
theorem AfterBegin.tuned
    {begun : Machine}
    (atBegin : begun.AfterBegin) :
    begun.Tuned := by
  obtain ⟨start, actions, events, reset, ran⟩ := atBegin.reached
  have beforeBegin : start.TunedOnceBegun := by
    intro returned
    rw [reset.atStart] at returned
    contradiction
  have tuned : begun.TunedOnceBegun :=
    LabelledRun.run?_invariant TunedOnceBegun
      (fun holds stepped => holds.step? stepped) beforeBegin ran
  exact tuned (by rw [atBegin.atReturn]; rfl)

/-! ## What arrives -/

/-- The byte that `recv` makes when the handler runs. -/
def Action.arrival? : Action → Option Byte
  | .pinChange false samples => some (SoftwareSerial.sampleByte samples)
  | _ => none

/-- The byte that `recv` stored, or dropped in a full buffer. -/
def Event.made? : Event → Option Byte
  | .stored b | .dropped b => some b
  | _ => none

/-- Only the handler makes something of the line. -/
theorem RelayOk.made
    {action : Action}
    {result : Machine × List Event}
    (ok : m.RelayOk)
    (stepped : m.step? action = some result) :
    result.2.filterMap Event.made? = (Action.arrival? action).toList := by
  cases step?_inversion stepped with
  | main =>
      cases ok.mainEffect with
      | silent _ events | consumes _ _ events | translates _ _ events
      | sends _ _ _ events =>
          rw [events]
          rfl
  | pinChange _ _ startLevel samples =>
      cases reception (ok.ready.active ok.returned) startLevel samples with
      | idle _ _ events | store _ _ _ events | drop _ _ _ events =>
          rw [events]
          rfl
  | dataRegisterEmpty | usartReceive | shiftOut =>
      rfl

/-- In a run the handler makes the bytes that arrive. -/
theorem run?_made
    {final : Machine}
    {actions : List Action}
    {events : List Event}
    (ok : m.RelayOk)
    (ran : m.run? actions = some (final, events)) :
    events.filterMap Event.made? = actions.filterMap Action.arrival? := by
  induction actions generalizing m events with
  | nil =>
      cases ran
      rfl
  | cons action rest inductionHypothesis =>
      obtain ⟨middle, first, later, stepped, continued, rfl⟩ :=
        LabelledRun.run?_cons_iff.mp ran
      have here := ok.made stepped
      have onward := inductionHypothesis (ok.step? stepped) continued
      rw [List.filterMap_append, here, onward]
      cases arrival : Action.arrival? action <;> simp [arrival]

/-- What is stored of it keeps its order. -/
theorem stored_sublist_made (events : List Event) :
    (events.filterMap Event.stored?).Sublist
      (events.filterMap Event.made?) := by
  induction events with
  | nil =>
      exact .slnil
  | cons event rest inductionHypothesis =>
      cases event with
      | stored b =>
          exact inductionHypothesis.cons_cons b
      | dropped b =>
          exact inductionHypothesis.cons b
      | _ =>
          exact inductionHypothesis

/-- It is all of it if nothing is dropped. -/
theorem stored_eq_made
    {events : List Event}
    (kept : events.filterMap Event.dropped? = []) :
    events.filterMap Event.stored? = events.filterMap Event.made? := by
  rw [List.filterMap_eq_nil_iff] at kept
  refine List.filterMap_congr (fun event member => ?_)
  have notDropped := kept event member
  cases event with
  | dropped b =>
      contradiction
  | _ =>
      rfl

/--
A sender puts a text on the line of the UART, near 9600 baud.  What `recv` stores
is in order and of that text, and all of it if the handler had the time to and
the buffer never was full.  The host types what was stored: at every moment it
has typed a beginning, and if nothing more arrives it will have typed all.
-/
theorem AfterBegin.types_sent_text
    {begun : Machine}
    {actions : List Action}
    {events : List Event}
    (atBegin : begun.AfterBegin)
    (ran : begun.run? actions = some (m, events))
    {lo hi : Nat}
    (near : SoftwareSerial.NearSpeed 9600 lo hi)
    {late check : Nat → Nat}
    (inTime : ∀ edge, late edge < 430)
    (checked :
      ∀ edge,
        check edge ≤
          late edge + (SoftwareSerial.recvCycles begun.gccVersion).toCentering)
    {t : Nat}
    {frames : List (Frame Bool 8)}
    (before : ∀ frame ∈ frames.head?, t < frame.edge 0)
    (paced : ∀ frame ∈ frames, Paced frame.edge 9 lo hi)
    (spaced : Spaced lo frames)
    {watched : Nat}
    (onWire :
      actions.filterMap Action.arrival? =
        begun.uart.bytesHeard (SoftwareSerial.recvCycles begun.gccVersion)
          late check
          (SerialFrame.levelAt true
            (frames.flatMap (Frame.writes true false)))
          watched t) :
    let text :=
      frames.map (fun frame => SoftwareSerial.sampleByte frame.data)
    let stored := events.filterMap Event.stored?
    (∃ sent, stored.Sublist sent ∧ sent <+: text) ∧
      (events.filterMap Event.dropped? = [] →
        (∀ frame ∈ frames, frame.edge 0 ≤ t + watched) →
          stored = text) ∧
      typed (events.filterMap Event.udr?) <+:
        (stored.filter typable).map some ∧
      ∃ draining final seen,
        (∀ action ∈ draining, Action.isArrival action = false) ∧
          m.run? draining = some (final, seen) ∧
            final.Idle ∧
              typed ((events ++ seen).filterMap Event.udr?) =
                (stored.filter typable).map some := by
  intro text stored
  have normalLogic : begun.uart.inverseLogic = false :=
    (atBegin.relayOk.ready.active atBegin.relayOk.returned).inverseLogic
  have heard :=
    @SoftwareSerial.bytesHeard_frames begun.uart begun.gccVersion 9600 lo hi
      late check
      (fun edge =>
        SoftwareSerial.tolerates_of_nearSpeed (by decide) (by decide) near
          (by
            have soon := inTime edge
            have delay : SoftwareSerial.bitDelay 9600 = 416 := rfl
            omega)
          (checked edge))
      t frames before paced spaced watched
  have bytes :
      (fun frame : Frame Bool 8 => begun.uart.received frame.data) =
        fun frame => SoftwareSerial.sampleByte frame.data := by
    funext frame
    rw [SoftwareSerial.received, normalLogic, if_neg Bool.false_ne_true]
  have tuned : begun.uart.tuneDelays begun.gccVersion 9600 = begun.uart :=
    atBegin.tuned
  rw [normalLogic, tuned, bytes] at heard
  obtain ⟨heardPrefix, heardAll⟩ := heard
  rw [Bool.not_false, ← onWire, ← run?_made atBegin.relayOk ran]
    at heardPrefix heardAll
  refine ⟨⟨_, stored_sublist_made events, heardPrefix⟩,
    fun kept enough => ?_, atBegin.types_stored_text ran⟩
  exact (stored_eq_made kept).trans (heardAll enough)

/-- The line while an `a` arrives. -/
def lineOfA : Nat → Bool :=
  SerialFrame.levelAt true
    ([SoftwareSerial.exactFrame (BootKeyboard.ascii 'a')].flatMap
      (Frame.writes true false))

theorem lineOfA_heard :
    (powerOn.mainSteps 81).uart.bytesHeard
        (SoftwareSerial.recvCycles (powerOn.mainSteps 81).gccVersion)
        (fun _ => 300) (fun _ => 350) lineOfA 30000 0 =
      [BootKeyboard.ascii 'a'] := by
  have tuned :
      (powerOn.mainSteps 81).uart.tuneDelays
          (powerOn.mainSteps 81).gccVersion 9600 =
        (powerOn.mainSteps 81).uart :=
    afterBegin_powerOn.tuned
  have heard :=
    (@SoftwareSerial.bytesHeard_frames (powerOn.mainSteps 81).uart
      (powerOn.mainSteps 81).gccVersion 9600 1664 1668
      (fun _ => 300) (fun _ => 350)
      (fun _ =>
        SoftwareSerial.tolerates_of_nearSpeed (by decide) (by decide)
          ⟨by decide, by decide⟩ (by decide) (by decide +kernel))
      0 [SoftwareSerial.exactFrame (BootKeyboard.ascii 'a')] (by decide)
      (fun frame member => by
        rw [List.mem_singleton.mp member]
        exact SoftwareSerial.exactFrame_paced _)
      (List.isChain_singleton _) 30000).2 (by decide)
  have normalLogic : (powerOn.mainSteps 81).uart.inverseLogic = false := by
    decide +kernel
  rw [tuned, normalLogic] at heard
  refine heard.trans ?_
  rw [List.map_singleton, SoftwareSerial.received, normalLogic,
    if_neg Bool.false_ne_true]
  exact congrArg (fun b => [b]) (SoftwareSerial.sampleByte_samplesOf _)

theorem arrivesA :
    [.pinChange false
        (SoftwareSerial.samplesOf (BootKeyboard.ascii 'a'))].filterMap
        Action.arrival? =
      [BootKeyboard.ascii 'a'] := by
  decide +kernel

theorem receivesA_isSome :
    ((powerOn.mainSteps 81).run?
      [.pinChange false
        (SoftwareSerial.samplesOf (BootKeyboard.ascii 'a'))]).isSome =
      true := by
  decide +kernel

/-- The microcontroller when the `a` has arrived, and what it did. -/
def receivedA : Machine × List Event :=
  ((powerOn.mainSteps 81).run?
    [.pinChange false
      (SoftwareSerial.samplesOf (BootKeyboard.ascii 'a'))]).get
        receivesA_isSome

theorem run?_receivedA :
    (powerOn.mainSteps 81).run?
        [.pinChange false
          (SoftwareSerial.samplesOf (BootKeyboard.ascii 'a'))] =
      some (receivedA.1, receivedA.2) := by
  rw [Prod.mk.eta]
  exact (Option.some_get receivesA_isSome).symm

theorem types_sent_text_receivedA :
    ∃ draining final seen,
      (∀ action ∈ draining, Action.isArrival action = false) ∧
        receivedA.1.run? draining = some (final, seen) ∧
          final.Idle ∧
            typed ((receivedA.2 ++ seen).filterMap Event.udr?) =
              [some (BootKeyboard.ascii 'a')] := by
  have stored :
      ((receivedA.2.filterMap Event.stored?).filter typable).map some =
        [some (BootKeyboard.ascii 'a')] := by
    decide +kernel
  have types :=
    @AfterBegin.types_sent_text receivedA.1 (powerOn.mainSteps 81)
      [.pinChange false
        (SoftwareSerial.samplesOf (BootKeyboard.ascii 'a'))]
      receivedA.2 afterBegin_powerOn
      run?_receivedA 1664 1668
      ⟨by decide, by decide⟩ (fun _ => 300) (fun _ => 350)
      (fun _ => by decide) (fun _ => by decide +kernel)
      0 [SoftwareSerial.exactFrame (BootKeyboard.ascii 'a')] (by decide)
      (fun frame member => by
        rw [List.mem_singleton.mp member]
        exact SoftwareSerial.exactFrame_paced _)
      (List.isChain_singleton _) 30000
      (arrivesA.trans lineOfA_heard.symm)
  rw [← stored]
  exact types.2.2.2

/-! ## What the relay cannot carry -/

/-- Main never owes more than the reports of one byte. -/
theorem Follows.owed_length_le
    {initialOverflow : Bool}
    {past : List Event}
    (follows : Follows initialOverflow past m) :
    m.owed.length ≤ 16 := by
  have bound := follows.owedBound
  cases pending : m.pc.pending with
  | none =>
      rwa [owed_of_notPending pending]
  | some b =>
      have owesNothing : m.pc.target.owed m.keyboardBuffer = [] := by
        cases pc : m.pc with
        | code todo loaded continuation =>
            rw [pc] at pending
            contradiction
        | here position =>
            rw [pc] at pending
            cases position <;> first | rfl | contradiction
      rw [owed, owesNothing, pending]
      simpa using length_bytesFor_le b

theorem length_made (events : List Event) :
    (events.filterMap Event.made?).length =
      (events.filterMap Event.stored?).length +
        (events.filterMap Event.dropped?).length := by
  induction events with
  | nil =>
      rfl
  | cons event rest inductionHypothesis =>
      cases event with
      | stored b =>
          exact (congrArg (· + 1) inductionHypothesis).trans
            (Nat.add_right_comm _ _ 1)
      | dropped b =>
          exact congrArg (· + 1) inductionHypothesis
      | _ =>
          exact inductionHypothesis

/--
Sixteen bytes are due for every key that arrives.  Those that are neither sent
nor in one of the rings nor in main's hands belong to keys that were dropped, and
there is room for few: whatever the interleaving, of the keys that arrive while
`k` bytes are sent all but `(k + 1087) / 16` are lost.
-/
theorem AfterBegin.drops_surplus
    {begun : Machine}
    {actions : List Action}
    {events : List Event}
    (atBegin : begun.AfterBegin)
    (ran : begun.run? actions = some (m, events))
    (mapped : ∀ b ∈ actions.filterMap Action.arrival?, b ∈ mappedBytes) :
    16 * (actions.filterMap Action.arrival?).length =
        16 * (events.filterMap Event.dropped?).length + sentCount events +
          (m.tx.contents.length + m.owed.length +
            16 * m.rx.contents.length) ∧
      m.tx.contents.length + m.owed.length + 16 * m.rx.contents.length ≤
        1087 := by
  have follows : Follows begun.uart.bufferOverflow ([] ++ events) m :=
    atBegin.follows.run? ran
  rw [List.nil_append] at follows
  obtain ⟨accepted, _, _, _, _, delivered⟩ := follows.endToEnd
  have made := run?_made atBegin.relayOk ran
  have consumedMapped :
      ∀ b ∈ events.filterMap Event.consumed?, b ∈ mappedBytes := by
    intro b member
    refine mapped b ?_
    rw [← made]
    refine (stored_sublist_made events).subset ?_
    rw [accepted]
    exact List.mem_append_left _ member
  have lengths := congrArg List.length delivered
  have counts := length_made events
  have share := follows.owed_length_le
  have queued := m.tx.occupancy_lt
  have unread := m.rx.occupancy_lt
  rw [length_flatMap_bytesFor consumedMapped, List.length_append,
    List.length_append] at lengths
  rw [made, accepted, List.length_append] at counts
  rw [sentCount]
  simp only [Ring.length_contents] at lengths counts ⊢
  omega

theorem drops_surplus_receivedA :
    16 * 1 =
        16 * (receivedA.2.filterMap Event.dropped?).length +
            sentCount receivedA.2 +
          (receivedA.1.tx.contents.length + receivedA.1.owed.length +
            16 * receivedA.1.rx.contents.length) ∧
      receivedA.1.tx.contents.length + receivedA.1.owed.length +
          16 * receivedA.1.rx.contents.length ≤
        1087 := by
  have drops :=
    @AfterBegin.drops_surplus receivedA.1 (powerOn.mainSteps 81)
      [.pinChange false
        (SoftwareSerial.samplesOf (BootKeyboard.ascii 'a'))]
      receivedA.2 afterBegin_powerOn run?_receivedA
      (by
        rw [arrivesA]
        decide)
  rw [arrivesA] at drops
  exact drops

end Machine

end KeyboardEmulator
