import KeyboardEmulator.RelayHandlers

namespace KeyboardEmulator

open BootKeyboard (Byte)
open RingBuffer (Ring next)

/-!
# The firmware refines the relay

In every run after `uart.begin`, under every interleaving, each byte stored by
`recv` is consumed once and in order, and each byte consumed leaves as its two
reports, with nothing lost, doubled or displaced on the way.
-/

namespace Event

def stored? : Event → Option Byte
  | .stored b => some b
  | _ => none

def dropped? : Event → Option Byte
  | .dropped b => some b
  | _ => none

def consumed? : Event → Option Byte
  | .consumed b => some b
  | _ => none

def translated? : Event → Option Int
  | .translated ret => some ret
  | _ => none

def udr? : Event → Option Byte
  | .udr b => some b
  | _ => none

open BoundedRelay in
theorem stored?_ofLabel (labels : List (Label Byte Byte)) :
    (labels.map ofLabel).filterMap stored? =
      labels.filterMap Label.stored? := by
  rw [List.filterMap_map]
  congr 1
  funext label
  cases label <;> rfl

open BoundedRelay in
theorem consumed?_ofLabel (labels : List (Label Byte Byte)) :
    (labels.map ofLabel).filterMap consumed? =
      labels.filterMap Label.consumed? := by
  rw [List.filterMap_map]
  congr 1
  funext label
  cases label <;> rfl

open BoundedRelay in
theorem udr?_ofLabel (labels : List (Label Byte Byte)) :
    (labels.map ofLabel).filterMap udr? =
      labels.filterMap Label.sent? := by
  rw [List.filterMap_map]
  congr 1
  funext label
  cases label <;> rfl

open BoundedRelay in
theorem translated?_ofLabel (labels : List (Label Byte Byte)) :
    (labels.map ofLabel).filterMap translated? =
      (labels.filterMap Label.translated?).map
        (fun b => (b.toNat : Int)) := by
  rw [List.filterMap_map, List.map_filterMap]
  congr 1
  funext label
  cases label <;> rfl

/-- The events show a drop exactly when they name a dropped byte. -/
theorem any_drops_iff {events : List Event} :
    events.any drops = true ↔ events.filterMap dropped? ≠ [] := by
  constructor
  · intro dropping noDrop
    obtain ⟨event, member, isDrop⟩ := List.any_eq_true.mp dropping
    cases event with
    | dropped b =>
        have inDropped : b ∈ events.filterMap dropped? :=
          List.mem_filterMap.mpr ⟨.dropped b, member, rfl⟩
        rw [noDrop] at inDropped
        contradiction
    | _ =>
        contradiction
  · intro dropping
    obtain ⟨b, member⟩ := List.exists_mem_of_ne_nil _ dropping
    obtain ⟨event, isEvent, named⟩ := List.mem_filterMap.mp member
    refine List.any_eq_true.mpr ⟨event, isEvent, ?_⟩
    cases event <;> first | rfl | contradiction

end Event

namespace Machine

/-- Every step of the system is at most one step of the relay. -/
theorem RelayOk.simulates
    {m : Machine}
    {action : Action}
    {result : Machine × List Event}
    (ok : m.RelayOk)
    (stepped : m.step? action = some result) :
    Simulates m result := by
  cases step?_inversion stepped with
  | main =>
      exact .mainStep ok
  | pinChange _ _ startLevel samples =>
      exact .pinChange ok (ok.ready.active ok.returned) startLevel samples
  | dataRegisterEmpty enabled udrie =>
      exact .dataRegisterEmpty ok enabled udrie
  | usartReceive _ _ c parityError =>
      exact .usartReceive ok c parityError
  | shiftOut =>
      exact .shiftOut ok

theorem RelayOk.step?
    {m : Machine}
    {action : Action}
    {result : Machine × List Event}
    (ok : m.RelayOk)
    (stepped : m.step? action = some result) :
    result.1.RelayOk :=
  have simulates := ok.simulates stepped
  ⟨ok.ready.step? stepped, simulates.position, simulates.udrie⟩

theorem RelayOk.run?
    {m final : Machine}
    {actions : List Action}
    {events : List Event}
    (ok : m.RelayOk)
    (ran : m.run? actions = some (final, events)) :
    final.RelayOk :=
  LabelledRun.run?_invariant RelayOk
    (fun holds stepped => holds.step? stepped) ok ran

/-- `uart.begin(9600)` has just returned, with both rings empty. -/
structure AfterBegin (m : Machine) : Prop where
  reached :
    ∃ start actions events,
      Reset start ∧ run? start actions = some (m, events)
  atReturn : m.pc = .here .setTimeout
  rxEmpty : m.rx.Empty
  txEmpty : m.tx.Empty

/-- From power-on main alone gets there. -/
theorem afterBegin_powerOn : (powerOn.mainSteps 81).AfterBegin := by
  obtain ⟨events, ran⟩ := run?_mainSteps 81 powerOn
  exact ⟨⟨powerOn, _, events, powerOn_reset, ran⟩, by decide +kernel,
    by decide +kernel, by decide +kernel⟩

/-- The setup code leaves UDRIE clear, as the empty ring requires. -/
theorem AfterBegin.relayOk
    {m : Machine}
    (begun : m.AfterBegin) :
    m.RelayOk := by
  obtain ⟨start, actions, events, reset, ran⟩ := begun.reached
  have ready := reset.run?_ready ran
  have inSetup : m.pc.inSetup = true := by
    rw [begun.atReturn]
    rfl
  have announced : Pos.remaining .setTimeout = ledSetup := rfl
  have settles := ready.udrie inSetup
  rw [SettlesAt, begun.atReturn, finalBit_here _ _ _ rfl, announced,
    codeBit_ledSetup_receiver List.mem_cons_self] at settles
  refine ⟨ready, ?_, fun _ => ?_⟩
  · rw [PcOk, begun.atReturn]
    trivial
  · refine iff_of_false ?_ (not_not.mpr begun.txEmpty)
    rw [Bool.not_eq_true]
    exact settles

/-- Main alone runs LED code to its end. -/
theorem mainSteps_ledCode
    {m : Machine}
    {todo : List Access}
    {loaded : Option Byte}
    {continuation : Pos}
    (pc : m.pc = .code todo loaded continuation)
    (code : ConfinedCode ledBits m.io todo loaded) :
    ∃ n, (m.mainSteps n).pc = .here continuation ∧
      SameRelay m (m.mainSteps n) := by
  generalize steps : codeLength todo loaded = left
  induction left generalizing m todo loaded with
  | zero =>
      cases todo with
      | nil =>
          have same : SameRelay m (m.codeStep [] loaded continuation) :=
            codeStep_sameRelay code.confined continuation
          refine ⟨1, ?_, ?_⟩ <;>
            rw [mainSteps, mainSteps, mainStep, pc]
          · rfl
          · exact same
      | cons access rest =>
          obtain ⟨_, _, _, _, _, _, shorter, _⟩ :=
            codeStep_confined code [] continuation
          omega
  | succ left inductionHypothesis =>
      cases todo with
      | nil =>
          simp [codeLength] at steps
      | cons access rest =>
          obtain ⟨todo', held, after, reached, atLeft, still, shorter, _⟩ :=
            codeStep_confined code [] continuation
          rw [List.append_nil] at reached atLeft
          have same : SameRelay m after := by
            rw [← reached]
            exact codeStep_sameRelay code.confined continuation
          obtain ⟨n, ended, later⟩ :=
            inductionHypothesis atLeft still (by omega)
          have first : m.mainStep.1 = after := by
            rw [mainStep, pc, ← reached]
          refine ⟨n + 1, ?_, ?_⟩ <;> rw [mainSteps, first]
          · exact ended
          · exact same.trans later

/-- From the return of `uart.begin` main alone gets to the loop. -/
theorem AfterBegin.exists_loopHead
    {begun : Machine}
    (atBegin : begun.AfterBegin) :
    ∃ n, (begun.mainSteps n).pc = .here .loopHead ∧
      SameRelay begun (begun.mainSteps n) := by
  have entered :
      begun.mainStep.1 =
        { begun with pc := .code ledSetup none .loopHead } := by
    rw [mainStep, atBegin.atReturn]
    rfl
  obtain ⟨n, ended, same⟩ :=
    @mainSteps_ledCode { begun with pc := .code ledSetup none .loopHead }
      ledSetup none .loopHead rfl
      ⟨confined_ledSetup, by simp [LoadedCurrent]⟩
  refine ⟨n + 1, ?_, ?_⟩ <;> rw [mainSteps, entered]
  · exact ended
  · exact ⟨same.rx, same.tx, same.keyboardBuffer, same.overflow,
      same.udre, same.udrie⟩

/-- The events so far account for the present state. -/
structure Follows
    (initialOverflow : Bool)
    (past : List Event)
    (m : Machine) : Prop where
  ok : m.RelayOk
  account :
    ∃ labels,
      past = labels.map Event.ofLabel ∧
        BoundedRelay.Accounts bytesFor labels m.relay
  overflow :
    m.uart.bufferOverflow = (initialOverflow || past.any Event.drops)
  /-- main never owes more than the two reports of one byte -/
  owedBound : m.relay.owed.length ≤ 16

/-- A byte makes main write two reports or none. -/
theorem length_bytesFor_le (b : Byte) :
    (bytesFor b).length ≤ 16 := by
  rw [length_bytesFor]
  split <;> omega

theorem Follows.step?
    {initialOverflow : Bool}
    {past emitted : List Event}
    {m after : Machine}
    {action : Action}
    (follows : Follows initialOverflow past m)
    (stepped : m.step? action = some (after, emitted)) :
    Follows initialOverflow (past ++ emitted) after := by
  obtain ⟨labels, shown, accounts⟩ := follows.account
  have simulates := follows.ok.simulates stepped
  obtain ⟨label, relayStep, emits⟩ := simulates.relay
  refine ⟨follows.ok.step? stepped, ⟨labels ++ label.toList, ?_,
    accounts.step relayStep⟩, ?_,
    relayStep.owed_length_le length_bytesFor_le follows.owedBound⟩
  · rw [shown, List.map_append]
    congr 1
    refine emits.trans ?_
    cases label <;> rfl
  · refine simulates.overflow.trans ?_
    rw [follows.overflow, List.any_append, Bool.or_assoc]

/-- Both rings empty and nothing owed: an empty past accounts for the state. -/
theorem RelayOk.follows
    {m : Machine}
    (ok : m.RelayOk)
    (noUnread : m.rx.Empty)
    (noPending : m.pc.pending = none)
    (noOwed : m.pc.target.owed m.keyboardBuffer = [])
    (noQueued : m.tx.Empty) :
    Follows m.uart.bufferOverflow [] m where
  ok := ok
  account :=
    ⟨[], rfl,
      BoundedRelay.accounts_nil bytesFor
        (Ring.contents_eq_nil_iff.mpr noUnread) noPending noOwed
        (Ring.contents_eq_nil_iff.mpr noQueued)⟩
  overflow := (Bool.or_false _).symm
  owedBound := by
    rw [relay, noOwed]
    exact Nat.zero_le _

theorem AfterBegin.follows
    {begun : Machine}
    (atBegin : begun.AfterBegin) :
    Follows begun.uart.bufferOverflow [] begun := by
  have noPending : begun.pc.pending = none := by
    rw [atBegin.atReturn]
    rfl
  have noOwed : begun.pc.target.owed begun.keyboardBuffer = [] := by
    rw [atBegin.atReturn]
    rfl
  exact atBegin.relayOk.follows atBegin.rxEmpty noPending noOwed
    atBegin.txEmpty

theorem Follows.run?
    {initialOverflow : Bool}
    {past events : List Event}
    {m final : Machine}
    {actions : List Action}
    (follows : Follows initialOverflow past m)
    (ran : m.run? actions = some (final, events)) :
    Follows initialOverflow (past ++ events) final :=
  LabelledRun.run?_history (Follows initialOverflow)
    (fun holds stepped => holds.step? stepped) follows ran

/-- What main has consumed and not yet handed to `write`, as bytes. -/
def owed (m : Machine) : List Byte :=
  m.pc.target.owed m.keyboardBuffer ++
    m.pc.pending.toList.flatMap bytesFor

/-- The end-to-end account of the relay. -/
structure EndToEnd (events : List Event) (m : Machine) : Prop where
  accepted :
    events.filterMap Event.stored? =
      events.filterMap Event.consumed? ++ m.rx.contents
  arrival :
    ∀ (startLevel : Bool) (samples : Vector Bool 8)
        (result : Machine × List Event),
      m.step? (.pinChange startLevel samples) = some result →
        result.2 =
          if startLevel then
            []
          else if m.rx.contents.length = 63 then
            [.dropped (SoftwareSerial.sampleByte samples)]
          else
            [.stored (SoftwareSerial.sampleByte samples)]
  overflow :
    events.filterMap Event.dropped? ≠ [] → m.uart.bufferOverflow = true
  translated :
    events.filterMap Event.translated? ++
        m.pc.pending.toList.map (fun b => (b.toNat : Int)) =
      (events.filterMap Event.consumed?).map (fun b => (b.toNat : Int))
  neverMinusOne : .translated (-1) ∉ events
  delivered :
    events.filterMap Event.udr? ++ m.tx.contents ++ m.owed =
      (events.filterMap Event.consumed?).flatMap bytesFor

/-- An account of the relay is an end-to-end account of the firmware. -/
theorem Follows.endToEnd
    {initialOverflow : Bool}
    {events : List Event}
    {m : Machine}
    (follows : Follows initialOverflow events m) :
    EndToEnd events m := by
  obtain ⟨labels, shown, accepted, worked, delivered⟩ := follows.account
  have listening := follows.ok.ready.active follows.ok.returned
  constructor
  · rw [shown, Event.stored?_ofLabel, Event.consumed?_ofLabel, accepted]
    rfl
  · intro startLevel samples result stepped
    have received := step?_inversion stepped
    cases received with
    | pinChange =>
        have length : m.rx.Full ↔ m.rx.contents.length = 63 := by
          rw [Ring.length_contents]
          exact Ring.full_iff_occupancy.trans (by omega)
        have outcome := reception listening startLevel samples
        cases outcome with
        | idle rx overflow events =>
            rw [events]
            rfl
        | store room rx overflow events =>
            rw [events, if_neg (mt length.mpr room)]
            rfl
        | drop full rx overflow events =>
            rw [events, if_pos (length.mp full)]
            rfl
  · intro dropped
    rw [follows.overflow, Event.any_drops_iff.mpr dropped,
      Bool.or_true]
  · rw [shown, Event.translated?_ofLabel, Event.consumed?_ofLabel,
      worked, List.map_append]
    rfl
  · intro member
    rw [shown, List.mem_map] at member
    obtain ⟨label, _, isMinusOne⟩ := member
    cases label with
    | translated b =>
        simp only [Event.ofLabel, Event.translated.injEq] at isMinusOne
        omega
    | _ =>
        contradiction
  · rw [shown, Event.udr?_ofLabel, Event.consumed?_ofLabel, worked,
      List.flatMap_append, ← delivered]
    simp only [Machine.owed, List.append_assoc]
    rfl

/-- With nothing owed and nothing queued all that was consumed is sent. -/
theorem EndToEnd.sent_of_transmitted
    {events : List Event}
    {m : Machine}
    (account : EndToEnd events m)
    (nothingOwed : m.owed = [])
    (transmitted : m.tx.Empty) :
    events.filterMap Event.udr? =
      (events.filterMap Event.consumed?).flatMap bytesFor := by
  have delivered := account.delivered
  rw [nothingOwed, Ring.contents_eq_nil_iff.mpr transmitted,
    List.append_nil, List.append_nil] at delivered
  exact delivered

/--
In every run from the return of `uart.begin`, whatever the interleaving of main
with receptions, transmit and receive interrupts, the relay is accounted for.
-/
theorem relay_end_to_end
    {begun m : Machine}
    {actions : List Action}
    {events : List Event}
    (atBegin : begun.AfterBegin)
    (ran : run? begun actions = some (m, events)) :
    EndToEnd events m := by
  have follows : Follows begun.uart.bufferOverflow ([] ++ events) m :=
    atBegin.follows.run? ran
  exact follows.endToEnd

/-- A keystroke that arrives right after the return of `uart.begin`. -/
theorem relay_end_to_end_arrival :
    EndToEnd [.stored (BootKeyboard.ascii 'a')]
      ((powerOn.mainSteps 81).interrupt
        (fun entered =>
          entered.handleInterrupt false
            (SoftwareSerial.samplesOf (BootKeyboard.ascii 'a')))).1 := by
  have enabled :
      ((powerOn.mainSteps 81).sregI &&
        (powerOn.mainSteps 81).pinChangeEnabled) = true := by
    decide +kernel
  have stored :
      ((powerOn.mainSteps 81).interrupt
        (fun entered =>
          entered.handleInterrupt false
            (SoftwareSerial.samplesOf (BootKeyboard.ascii 'a')))).2 =
        [.stored (BootKeyboard.ascii 'a')] := by
    decide +kernel
  have stepped :
      (powerOn.mainSteps 81).step?
          (.pinChange false
            (SoftwareSerial.samplesOf (BootKeyboard.ascii 'a'))) =
        some
          (((powerOn.mainSteps 81).interrupt
            (fun entered =>
              entered.handleInterrupt false
                (SoftwareSerial.samplesOf (BootKeyboard.ascii 'a')))).1,
            [.stored (BootKeyboard.ascii 'a')]) := by
    rw [step?, if_pos enabled, ← stored]
  exact relay_end_to_end afterBegin_powerOn
    (LabelledRun.run?_singleton stepped)

end Machine

end KeyboardEmulator
