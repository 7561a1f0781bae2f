import KeyboardEmulator.PortSharing
import KeyboardEmulator.SoftwareSerialWire

namespace KeyboardEmulator

/-!
# From the wire to the reader

While an object listens, the bytes that its handler makes of the line are the
bytes that it stores or drops, and a client reads those that it stored.  Nothing
but `begin` of the object itself changes what it makes of the line.
-/

/-- `begin` of an object is about to set its delays. -/
def CallAt.begins {ι : Type} (o : ι) : CallAt ι → Prop
  | .beginDelays p _ => p = o
  | _ => False

namespace ListeningPorts

variable {ι : Type}

/-- The byte that `recv` of an object makes when the handler runs. -/
def Action.arrival? (object : SoftwareSerial) : Action ι → Option (BitVec 8)
  | .pinChange startLevel samples =>
      if object.startBit startLevel then some (object.received samples)
      else none
  | .call _ _ | .run => none

/-- Not the end or the beginning of listening. -/
def Event.keepsListening : Event ι → Bool
  | .listening _ | .stopped _ => false
  | _ => true

/-- The objects differ in nothing but the overflow flag. -/
def SameTuning (object object' : SoftwareSerial) : Prop :=
  object' = { object with bufferOverflow := object'.bufferOverflow }

theorem SameTuning.trans
    {object object' object'' : SoftwareSerial}
    (first : SameTuning object object')
    (second : SameTuning object' object'') :
    SameTuning object object'' := by
  rw [SameTuning] at first
  rw [first] at second
  exact second

/-- What the handler makes does not depend on the overflow flag. -/
theorem arrival?_congr
    {object object' : SoftwareSerial}
    (same : SameTuning object object') :
    (Action.arrival? object' : Action ι → Option (BitVec 8)) =
      Action.arrival? object := by
  rw [same]
  rfl

theorem afterStop_settled (opening : Option ι) (o : ι) :
    ¬ (afterStop opening).begins o := by
  cases opening <;> exact id

theorem keepsOwner_of_keepsListening
    {event : Event ι}
    (keeps : event.keepsListening = true)
    {label : SharedMailbox.Label ι (BitVec 8)}
    (shows : event.label? = some label) :
    label.keepsOwner = true := by
  cases event with
  | listening | stopped =>
      contradiction
  | readGave o ret =>
      rw [Event.label?] at shows
      split at shows <;> cases shows <;> rfl
  | peekGave | availableGave =>
      contradiction
  | cleared | stored | dropped | overflowGave =>
      cases shows
      rfl

variable [DecidableEq ι]

/-- The byte that `recv` of an object stored, or dropped in a full buffer. -/
def Event.madeBy? (o : ι) : Event ι → Option (BitVec 8)
  | .stored o' d | .dropped o' d => if o' = o then some d else none
  | _ => none

variable {s next : ListeningPorts ι} {o : ι}

/-- What a step of a client does not do to an object that has begun. -/
structure Silent
    (s : ListeningPorts ι)
    (o : ι)
    (result : ListeningPorts ι × List (Event ι)) : Prop where
  tuning : SameTuning (s.objects o) (result.1.objects o)
  settled : ¬ result.1.location.begins o
  nothingMade : result.2.filterMap (Event.madeBy? o) = []

theorem sameTuning_modify
    (p : ι)
    (flag : Bool) :
    SameTuning (s.objects o)
      (s.modify p ({ · with bufferOverflow := flag }) o) := by
  rw [modify, Function.update_apply]
  split
  next isSame =>
    rw [isSame]
    rfl
  next =>
    rfl

theorem Silent.enter
    {p : ι}
    {method : Method}
    (noBegin : ∀ speed, method = .begin speed → p ≠ o) :
    Silent s o (s.enter p method, []) := by
  cases method with
  | begin speed =>
      have other := noBegin speed rfl
      refine ⟨?_, ?_, rfl⟩
      · change SameTuning _ (s.modify p SoftwareSerial.zeroDelays o)
        rw [modify, Function.update_of_ne (Ne.symm other)]
        rfl
      · exact other
  | _ =>
      exact ⟨rfl, id, rfl⟩

theorem Silent.listenStep
    {here : CallAt ι}
    (isHere : s.location = here)
    (settled : ¬ s.location.begins o) :
    Silent s o (s.listenStep here) := by
  cases here with
  | beginDelays p speed =>
      rw [isHere] at settled
      have other : o ≠ p := fun same => settled same.symm
      refine ⟨?_, id, rfl⟩
      change SameTuning _ (s.modify p (·.tuneDelays s.gccVersion speed) o)
      rw [modify, Function.update_of_ne other]
      rfl
  | listenOverflow p =>
      exact ⟨sameTuning_modify p false, id, rfl⟩
  | listenStopbit p =>
      rw [ListeningPorts.listenStep]
      split <;> exact ⟨rfl, id, rfl⟩
  | listenActive p =>
      rw [ListeningPorts.listenStep]
      split
      · exact ⟨rfl, id, rfl⟩
      · split <;> exact ⟨rfl, id, rfl⟩
  | listenMask p loaded =>
      cases loaded <;> exact ⟨rfl, id, rfl⟩
  | listenTail p | listenHead p | listenThis p =>
      exact ⟨rfl, id, rfl⟩
  | _ =>
      exact ⟨rfl, settled, rfl⟩

theorem Silent.stopStep
    (here : CallAt ι)
    (settled : ¬ s.location.begins o) :
    Silent s o (s.stopStep here) := by
  cases here with
  | stopTest p opening =>
      rw [ListeningPorts.stopStep]
      split
      · exact ⟨rfl, id, rfl⟩
      · exact ⟨rfl, afterStop_settled opening o, rfl⟩
  | stopMask p opening loaded =>
      cases loaded <;> exact ⟨rfl, id, rfl⟩
  | stopActive p opening =>
      exact ⟨rfl, afterStop_settled opening o, rfl⟩
  | _ =>
      exact ⟨rfl, settled, rfl⟩

theorem Silent.readStep
    (here : CallAt ι)
    (settled : ¬ s.location.begins o) :
    Silent s o (s.readStep here) := by
  cases here with
  | readTest p | readTail p head =>
      rw [ListeningPorts.readStep]
      split <;> exact ⟨rfl, id, rfl⟩
  | readHead p | readIndex p | readCell p index | readNext p d
  | readStore p d head =>
      exact ⟨rfl, id, rfl⟩
  | _ =>
      exact ⟨rfl, settled, rfl⟩

theorem Silent.peekStep
    (here : CallAt ι)
    (settled : ¬ s.location.begins o) :
    Silent s o (s.peekStep here) := by
  cases here with
  | peekTest p | peekTail p head =>
      rw [ListeningPorts.peekStep]
      split <;> exact ⟨rfl, id, rfl⟩
  | peekHead p | peekIndex p | peekCell p index =>
      exact ⟨rfl, id, rfl⟩
  | _ =>
      exact ⟨rfl, settled, rfl⟩

theorem Silent.statusStep
    (here : CallAt ι)
    (settled : ¬ s.location.begins o) :
    Silent s o (s.statusStep here) := by
  cases here with
  | availableTest p | overflowTest p =>
      rw [ListeningPorts.statusStep]
      split <;> exact ⟨rfl, id, rfl⟩
  | overflowClear p =>
      exact ⟨sameTuning_modify p false, id, rfl⟩
  | availableTail p | availableHead p tail =>
      exact ⟨rfl, id, rfl⟩
  | _ =>
      exact ⟨rfl, settled, rfl⟩

theorem Silent.runStep
    (settled : ¬ s.location.begins o) :
    Silent s o s.runStep := by
  rw [ListeningPorts.runStep]
  cases isHere : s.location with
  | client =>
      exact ⟨rfl, settled, rfl⟩
  | beginDelays | listenStopbit | listenActive | listenOverflow
  | listenTail | listenHead | listenThis | listenMask =>
      exact .listenStep isHere settled
  | stopTest | stopMask | stopActive =>
      exact .stopStep _ settled
  | readTest | readHead | readTail | readIndex | readCell | readNext
  | readStore =>
      exact .readStep _ settled
  | peekTest | peekHead | peekTail | peekIndex | peekCell =>
      exact .peekStep _ settled
  | availableTest | availableTail | availableHead | overflowTest
  | overflowClear =>
      exact .statusStep _ settled

/-- What a step makes of the line while an object listens. -/
structure Makes
    (s : ListeningPorts ι)
    (o : ι)
    (action : Action ι)
    (result : ListeningPorts ι × List (Event ι)) : Prop where
  tuning : SameTuning (s.objects o) (result.1.objects o)
  settled : ¬ result.1.location.begins o
  made :
    result.2.filterMap (Event.madeBy? o) =
      (action.arrival? (s.objects o)).toList

theorem Makes.recv
    (settled : ¬ s.location.begins o)
    (startLevel : Bool)
    (samples : Vector Bool 8) :
    Makes s o (.pinChange startLevel samples)
      (s.recv o startLevel samples) := by
  by_cases start : (s.objects o).startBit startLevel = true
  · have arrival :
        Action.arrival? (s.objects o)
            (.pinChange startLevel samples : Action ι) =
          some ((s.objects o).received samples) :=
      if_pos start
    by_cases full : s.ring.Full
    · rw [recv_of_full start full]
      refine ⟨sameTuning_modify o true, settled, ?_⟩
      simp [arrival, Event.madeBy?]
    · rw [recv_of_room start full]
      refine ⟨rfl, settled, ?_⟩
      simp [arrival, Event.madeBy?]
  · have arrival :
        Action.arrival? (s.objects o)
            (.pinChange startLevel samples : Action ι) = none :=
      if_neg start
    rw [ListeningPorts.recv, if_neg start]
    refine ⟨rfl, settled, ?_⟩
    rw [arrival]
    rfl

/-- Only the handler makes something of the line. -/
theorem Makes.step?
    {action : Action ι}
    {result : ListeningPorts ι × List (Event ι)}
    (owns : s.active = some o)
    (settled : ¬ s.location.begins o)
    (noBegin : ∀ speed, action ≠ .call o (.begin speed))
    (stepped : s.step? action = some result) :
    Makes s o action result := by
  cases action with
  | call p method =>
      rw [ListeningPorts.step?] at stepped
      split at stepped
      · obtain rfl := Option.some.inj stepped
        have other : ∀ speed, method = .begin speed → p ≠ o := by
          rintro speed rfl rfl
          exact noBegin speed rfl
        obtain ⟨tuning, begun, nothing⟩ := Silent.enter other
        exact ⟨tuning, begun, nothing⟩
      · contradiction
  | run =>
      rw [ListeningPorts.step?] at stepped
      split at stepped
      · contradiction
      · obtain rfl := Option.some.inj stepped
        obtain ⟨tuning, begun, nothing⟩ := Silent.runStep settled
        exact ⟨tuning, begun, nothing⟩
  | pinChange startLevel samples =>
      obtain rfl := Option.some.inj stepped
      rw [handleInterrupt, owns]
      exact .recv settled startLevel samples

/-! ## Runs -/

/-- A run while an object listens. -/
structure ListensThrough
    (s : ListeningPorts ι)
    (o : ι)
    (actions : List (Action ι))
    (events : List (Event ι))
    (final : ListeningPorts ι) : Prop where
  owns : final.active = some o
  tuning : SameTuning (s.objects o) (final.objects o)
  settled : ¬ final.location.begins o
  made :
    events.filterMap (Event.madeBy? o) =
      actions.filterMap (Action.arrival? (s.objects o))
  account :
    s.ring.contents ++ events.filterMap (Event.storedBy? o) =
      events.filterMap (Event.readBy? o) ++ final.ring.contents

/-- One step of such a run. -/
theorem ListensThrough.step
    {action : Action ι}
    {emitted : List (Event ι)}
    (ok : s.Ok)
    (owns : s.active = some o)
    (settled : ¬ s.location.begins o)
    (noBegin : ∀ speed, action ≠ .call o (.begin speed))
    (stepped : s.step? action = some (next, emitted))
    (keeps : ∀ event ∈ emitted, event.keepsListening = true) :
    ListensThrough s o [action] emitted next := by
  have refines := Refines.step? ok stepped
  obtain ⟨label, boxStep, emits⟩ := refines.box
  have keepsOwner : ∀ shown ∈ label, shown.keepsOwner = true := by
    intro shown isShown
    have member : shown ∈ emitted.filterMap Event.label? := by
      rw [emits]
      exact Option.mem_toList.mpr isShown
    obtain ⟨event, inEmitted, shows⟩ := List.mem_filterMap.mp member
    exact keepsOwner_of_keepsListening (keeps event inEmitted) shows
  obtain ⟨ownsNext, account⟩ := boxStep.account owns keepsOwner
  have active : next.active = some o := ownsNext
  rw [← emits, filterMap_takenBy, filterMap_deliveredTo,
    queue_of_active owns, queue_of_active active] at account
  have makes := Makes.step? owns settled noBegin stepped
  refine ⟨active, makes.tuning, makes.settled, ?_, account⟩
  rw [makes.made]
  cases arrival : action.arrival? (s.objects o) <;> simp [arrival]

/--
While an object listens, the handler stores or drops the bytes that it makes of
the line, and the client reads what was stored.
-/
theorem listensThrough_of_run
    {final : ListeningPorts ι}
    {actions : List (Action ι)}
    {events : List (Event ι)}
    (ok : s.Ok)
    (owns : s.active = some o)
    (settled : ¬ s.location.begins o)
    (noBegin : ∀ speed, .call o (.begin speed) ∉ actions)
    (ran : s.run? actions = some (final, events))
    (keeps : ∀ event ∈ events, event.keepsListening = true) :
    ListensThrough s o actions events final := by
  induction actions generalizing s events with
  | nil =>
      obtain ⟨rfl, rfl⟩ := Prod.mk.inj (Option.some.inj ran)
      exact ⟨owns, rfl, settled, rfl, List.append_nil _⟩
  | cons action rest inductionHypothesis =>
      obtain ⟨middle, first, later, stepped, continued, rfl⟩ :=
        LabelledRun.run?_cons_iff.mp ran
      have notFirst : ∀ speed, action ≠ .call o (.begin speed) :=
        fun speed same => noBegin speed (same ▸ List.mem_cons_self)
      have head : ListensThrough s o [action] first middle :=
        .step ok owns settled notFirst stepped
          (fun event member => keeps event (List.mem_append_left _ member))
      have tail :=
        inductionHypothesis (Refines.step? ok stepped).ok head.owns
          head.settled
          (fun speed member => noBegin speed (List.mem_cons_of_mem _ member))
          continued
          (fun event member => keeps event (List.mem_append_right _ member))
      have sameArrivals :
          (Action.arrival? (middle.objects o) :
              Action ι → Option (BitVec 8)) =
            Action.arrival? (s.objects o) :=
        arrival?_congr head.tuning
      refine ⟨tail.owns, head.tuning.trans tail.tuning, tail.settled, ?_, ?_⟩
      · rw [List.filterMap_append, head.made, tail.made, sameArrivals,
          ← List.filterMap_append]
        rfl
      · rw [List.filterMap_append, List.filterMap_append,
          ← List.append_assoc, head.account, List.append_assoc, tail.account,
          List.append_assoc]

/-! ## From writer to reader -/

/-- Not a loss for lack of room. -/
def Event.keepsByte : Event ι → Bool
  | .dropped _ _ => false
  | _ => true

theorem filterMap_madeBy
    {events : List (Event ι)}
    (kept : ∀ event ∈ events, event.keepsByte = true)
    (o : ι) :
    events.filterMap (Event.madeBy? o) =
      events.filterMap (Event.storedBy? o) := by
  refine List.filterMap_congr (fun event member => ?_)
  have isKept := kept event member
  cases event with
  | dropped =>
      contradiction
  | _ =>
      rfl

/--
One board writes a text, and a client of another reads from an object that
listens at the same speed: whatever else the client calls, as long as it does not
begin with the object again, the object goes on listening and the client keeps
up, the object stays tuned, and what is read and not yet read is what was in the
buffer before and the beginning of the text, in order and once.
-/
theorem reader_gets_written
    {start final : ListeningPorts ι}
    {early actions : List (Action ι)}
    {past events : List (Event ι)}
    (constructed : start.Constructed)
    (ranEarly : start.run? early = some (s, past))
    (owns : s.active = some o)
    (settled : ¬ s.location.begins o)
    (noBegin : ∀ speed, .call o (.begin speed) ∉ actions)
    (ran : s.run? actions = some (final, events))
    (listens : ∀ event ∈ events, event.keepsListening = true)
    (keepsUp : ∀ event ∈ events, event.keepsByte = true)
    {writer reader : SoftwareSerial}
    {writerGcc readerGcc speed : Nat}
    (began : s.objects o = reader.tuneDelays readerGcc speed)
    (sameLogic : writer.inverseLogic = reader.inverseLogic)
    (fits : SoftwareSerial.bitDelay speed * 3 < 65536)
    {late check : Nat → Nat}
    (inTime :
      ∀ edge,
        SoftwareSerial.InTime readerGcc (SoftwareSerial.bitDelay speed)
          (late edge))
    (checked :
      ∀ edge,
        check edge ≤
          late edge + (SoftwareSerial.recvCycles readerGcc).toCentering)
    {t watched : Nat}
    {text : List (Nat × BitVec 8)}
    {writes : List (Nat × Bool)}
    (written :
      (writer.tuneDelays writerGcc speed).writeAll
        (SoftwareSerial.writeCycles writerGcc) (t + 1) text = writes)
    (onWire :
      actions.filterMap (Action.arrival? (s.objects o)) <+:
        (s.objects o).bytesHeard (SoftwareSerial.recvCycles readerGcc)
          late check (SerialFrame.levelAt (!writer.inverseLogic) writes)
          watched t) :
    SameTuning (s.objects o) (final.objects o) ∧
      ∃ sent,
        sent <+: text.map Prod.snd ∧
          s.ring.contents ++ sent =
            events.filterMap (Event.readBy? o) ++ final.ring.contents := by
  have ok := (follows_of_run constructed.ok ranEarly).ok
  have through :=
    listensThrough_of_run ok owns settled noBegin ran listens
  refine ⟨through.tuning, actions.filterMap (Action.arrival? (s.objects o)), ?_, ?_⟩
  · rw [began] at onWire ⊢
    exact onWire.trans
      (SoftwareSerial.bytesHeard_writeAll sameLogic fits inTime checked t
        text written watched).1
  · rw [← through.made, filterMap_madeBy keepsUp]
    exact through.account

/-- One object begins to listen. -/
def beginsAt9600 : List (Action Bool) :=
  .call false (.begin 9600) :: List.replicate 9 .run

/-- Two bytes arrive, and the client reads the first meanwhile. -/
def readsMeanwhile : List (Action Bool) :=
  .pinChange false (SoftwareSerial.samplesOf 0x48) ::
    .call false .read :: List.replicate 6 .run ++
      [.pinChange false (SoftwareSerial.samplesOf 0x69), .run]

theorem run?_beginsAt9600 :
    (twoPorts.run? beginsAt9600).isSome = true := by
  decide +kernel

/-- The object that listens at 9600 baud. -/
def listening : ListeningPorts Bool :=
  ((twoPorts.run? beginsAt9600).get run?_beginsAt9600).1

theorem run?_readsMeanwhile :
    (listening.run? readsMeanwhile).isSome = true := by
  decide +kernel

/-- What the other board writes. -/
def twoBytes : List (Nat × BitVec 8) :=
  [(0, 0x48), (3000, 0x69)]

/-- The pin of the object, while the other board writes. -/
def lineOfTwoBytes : Nat → Bool :=
  SerialFrame.levelAt true
    (((SoftwareSerial.onPin (Fin.last 19)).tuneDelays 40302 9600).writeAll
      (SoftwareSerial.writeCycles 40302) 1 twoBytes)

theorem listening_began :
    listening.objects false =
      (SoftwareSerial.onPin (Fin.castSucc (Fin.last 18))).tuneDelays
        40902 9600 := by
  rfl

theorem lineOfTwoBytes_heard :
    ((SoftwareSerial.onPin (Fin.castSucc (Fin.last 18))).tuneDelays
        40902 9600).bytesHeard (SoftwareSerial.recvCycles 40902)
        (fun _ => 60) (fun _ => 100) lineOfTwoBytes 60000 0 =
      [0x48, 0x69] :=
  (@SoftwareSerial.bytesHeard_writeAll (SoftwareSerial.onPin (Fin.last 19))
    (SoftwareSerial.onPin (Fin.castSucc (Fin.last 18))) rfl
    40302 40902 9600 (by decide) (fun _ => 60) (fun _ => 100)
    (fun _ => by decide) (fun _ => by decide) 0 twoBytes _ rfl 60000).2
    (by decide)

theorem readsMeanwhile_arrives :
    readsMeanwhile.filterMap
        (Action.arrival?
          ((SoftwareSerial.onPin (Fin.castSucc (Fin.last 18))).tuneDelays
            40902 9600)) =
      [0x48, 0x69] := by
  decide +kernel

theorem reader_gets_written_twoBytes :
    SameTuning (listening.objects false)
        (((listening.run? readsMeanwhile).get
          run?_readsMeanwhile).1.objects false) ∧
      ∃ sent,
        sent <+: [0x48, 0x69] ∧
          listening.ring.contents ++ sent =
            ((listening.run? readsMeanwhile).get
                run?_readsMeanwhile).2.filterMap (Event.readBy? false) ++
              ((listening.run? readsMeanwhile).get
                run?_readsMeanwhile).1.ring.contents :=
  @reader_gets_written Bool _ listening false twoPorts
    ((listening.run? readsMeanwhile).get run?_readsMeanwhile).1
    beginsAt9600 readsMeanwhile
    ((twoPorts.run? beginsAt9600).get run?_beginsAt9600).2
    ((listening.run? readsMeanwhile).get run?_readsMeanwhile).2
    twoPorts_constructed (Option.some_get run?_beginsAt9600).symm rfl id
    (by simp [readsMeanwhile]) (Option.some_get run?_readsMeanwhile).symm (by decide +kernel)
    (by decide +kernel) (SoftwareSerial.onPin (Fin.last 19))
    (SoftwareSerial.onPin (Fin.castSucc (Fin.last 18))) 40302 40902 9600
    listening_began rfl (by decide) (fun _ => 60) (fun _ => 100)
    (fun _ => by decide) (fun _ => by decide) 0 60000 twoBytes _ rfl
    (by
      rw [listening_began, readsMeanwhile_arrives]
      exact (lineOfTwoBytes_heard ▸ List.prefix_rfl))

end ListeningPorts

end KeyboardEmulator
