import KeyboardEmulator.SerialWrite

namespace KeyboardEmulator

open BootKeyboard (Byte)
open RingBuffer (Ring next)

/-!
# Everything written is delivered

Handlers and hardware leave what a method has read true.  So in every run every
byte written leaves the transmitter once and in order, and when `flush` or
`end` returns all of them have left.
-/

/-- The method that runs is about to return from `flush` or from `end`. -/
def At.returning : At → Bool
  | .flush _ .ret | .endHead _ => true
  | _ => false

namespace Usart

/-- Handlers and hardware only take queued bytes and free UDR0. -/
structure Environment (before after : Usart) : Prop where
  location : after.location = before.location
  written : after.written = before.written
  flags :
    after.m.sregI = before.m.sregI ∧ after.m.oldSreg = before.m.oldSreg ∧
      after.flag = before.flag
  txWr : after.m.tx.wr = before.m.tx.wr
  txCells : after.m.tx.cells = before.m.tx.cells
  room : ¬ before.m.tx.Full → ¬ after.m.tx.Full
  off : before.m.sregI = false → after.m.tx = before.m.tx
  empty :
    before.m.tx.Empty →
      after.m.tx.Empty ∧ (before.m.udre = true → after.m.udre = true)
  idle :
    before.m.tx.Empty →
      before.m.udre = true →
        before.shifting = none →
          after.shifting = none
  onItsWay :
    before.location.window = true →
      (before.m.udre = true → before.shifting ≠ none) →
        after.m.udre = true →
          after.shifting ≠ none
  enabling :
    before.location.enabling = true →
      ¬ before.m.tx.Empty →
        ¬ after.m.tx.Empty

variable {before after : Usart}

theorem Quiet.environment
    (environment : Environment before after)
    (quiet : before.Quiet) :
    after.Quiet :=
  ⟨(environment.empty quiet.txEmpty).1,
    (environment.empty quiet.txEmpty).2 quiet.udre,
    environment.idle quiet.txEmpty quiet.udre quiet.shifting⟩

theorem WriteOk.environment
    (environment : Environment before after)
    {c : Byte}
    {position : WriteAt}
    (here : before.location = .write c position)
    (ok : before.WriteOk c position) :
    after.WriteOk c position := by
  have free :
      ∀ {i}, Machine.SlotFree before.m.tx i → Machine.SlotFree after.m.tx i :=
    fun ⟨index, room⟩ => ⟨environment.txWr ▸ index, environment.room room⟩
  have sregI := environment.flags.1
  cases position with
  | compareHead | nextIndex | slowRestore | ret =>
      trivial
  | compareTail head =>
      exact Eq.trans ok environment.txWr.symm
  | testUdre | fastRestore =>
      exact (environment.empty ok).1
  | fastSave | fastCli | fastUdr =>
      exact ⟨(environment.empty ok.1).1, (environment.empty ok.1).2 ok.2⟩
  | fastUcsra loaded =>
      exact ⟨(environment.empty ok.1).1,
        environment.onItsWay (by rw [here]; rfl) ok.2⟩
  | spin i =>
      exact Eq.trans ok (congrArg next environment.txWr.symm)
  | spinSreg i =>
      refine ⟨ok.1.trans (congrArg next environment.txWr.symm), fun off => ?_⟩
      rw [sregI] at off
      rw [environment.off off]
      exact ok.2 off
  | spinUdre i =>
      refine ⟨ok.1.trans (congrArg next environment.txWr.symm),
        sregI.trans ok.2.1, ?_⟩
      rw [environment.off ok.2.1]
      exact ok.2.2
  | cellIndex i =>
      exact free ok
  | cell i head =>
      exact ⟨free ok.1, ok.2.trans environment.txWr.symm⟩
  | slowSave i | slowCli i | slowHead i =>
      refine ⟨free ok.1, ?_⟩
      simp only [environment.txWr, environment.txCells]
      exact ok.2
  | slowUcsrb loaded =>
      exact environment.enabling (by rw [here]; rfl) ok

/-- What the running method has read stays true. -/
theorem TxAt.environment
    (environment : Environment before after)
    (ok : before.TxAt before.location) :
    after.TxAt before.location := by
  have quiet := fun isQuiet => Quiet.environment environment isQuiet
  have written := environment.written
  cases here : before.location with
  | endTail | endHead tail =>
      rw [here] at ok
      exact quiet ok
  | code opening todo loaded =>
      rw [here] at ok
      exact ⟨quiet ok.quiet, ok.spares, ok.loaded⟩
  | roomTail head =>
      rw [here] at ok
      exact Eq.trans ok environment.txWr.symm
  | flush ending position =>
      rw [here] at ok
      cases position with
      | testWritten =>
          trivial
      | testUdrie | testSreg =>
          exact Eq.trans written ok
      | testTxc =>
          exact ⟨written.trans ok.1, (environment.empty ok.2).1⟩
      | testUdrieOff =>
          exact ⟨written.trans ok.1, environment.flags.1.trans ok.2⟩
      | testUdre =>
          refine ⟨written.trans ok.1, environment.flags.1.trans ok.2.1, ?_⟩
          rw [environment.off ok.2.1]
          exact ok.2.2
      | ret =>
          exact quiet ok
  | write c position =>
      rw [here] at ok
      exact ⟨written.trans ok.1, ok.2.environment environment here⟩
  | _ =>
      trivial

/-- A step of handlers or hardware, given what it does to the transmitter. -/
theorem Simulates.environment
    {u after : Usart}
    {events : List Event}
    {label : Option (TransmitPipeline.Label Byte)}
    (ok : u.TxOk)
    (environment : Environment u after)
    (udrie : after.UdrieFollows)
    (pipe : TransmitPipeline.Step 63 u.pipe label after.pipe)
    (noWriting : events.filterMap Event.writing? = [])
    (notAccepted :
      label.toList.filterMap TransmitPipeline.Label.accepted? = [])
    (finished :
      events.filterMap Event.finished? =
        label.toList.filterMap TransmitPipeline.Label.finished?) :
    Simulates u (after, events) := by
  have same := environment.location
  obtain ⟨sregI, oldSreg, flag⟩ := environment.flags
  refine ⟨⟨?_, ?_, udrie, fun unwritten => ?_⟩, fun isWritten _ => ?_, label,
    pipe, ?_, finished⟩
  · rw [same]
    exact ok.position.environment environment
  · have flagOk := ok.flag
    rw [FlagOk] at flagOk ⊢
    rw [same, sregI, oldSreg, flag]
    exact flagOk
  · rw [environment.written] at unwritten
    exact (ok.unwritten unwritten).environment environment
  · rw [← environment.written]
    exact isWritten
  · rw [noWriting, notAccepted, same, List.append_nil, List.nil_append]

/-- Interrupts are on only outside the sections of `write`. -/
theorem mode_of_enabled
    {u : Usart}
    (ok : u.FlagOk)
    (enabled : u.m.sregI = true) :
    u.location.mode ≠ .off := by
  intro off
  rw [FlagOk, off] at ok
  rw [ok.1] at enabled
  contradiction

theorem notEnabling_of_enabled
    {u : Usart}
    (ok : u.FlagOk)
    (enabled : u.m.sregI = true) :
    u.location.enabling = false ∧ u.location.window = false := by
  have notOff := mode_of_enabled ok enabled
  cases here : u.location with
  | write c position =>
      rw [here] at notOff
      cases position <;> first | exact ⟨rfl, rfl⟩ | exact (notOff rfl).elim
  | _ =>
      exact ⟨rfl, rfl⟩

/-- The transmit interrupt. -/
theorem Simulates.dataRegisterEmpty
    {u : Usart}
    (ok : u.TxOk)
    (enabled : u.m.sregI = true)
    (udrie : u.m.udrie = true)
    (udre : u.m.udre = true) :
    Simulates u (u.absorb (u.m.interrupt Machine.txUdrEmptyIrq), []) := by
  obtain ⟨notEnabling, window⟩ := notEnabling_of_enabled ok.flag enabled
  have nonempty : ¬ u.m.tx.Empty := (ok.udrie notEnabling).mp udrie
  have transmits :
      Transmits u (u.absorb (u.m.interrupt Machine.txUdrEmptyIrq)) :=
    transmits_txUdrEmptyIrq udrie rfl rfl rfl rfl
  refine .environment ok ?_ (fun _ => transmits.udrie)
    (transmits.pipe nonempty udre) rfl rfl rfl
  exact
    { location := rfl
      written := rfl
      flags := ⟨enabled.symm, rfl, rfl⟩
      txWr := rfl
      txCells := rfl
      room := fun _ => Ring.not_full_release nonempty
      off := fun off => by rw [enabled] at off; contradiction
      empty := fun empty => (nonempty empty).elim
      idle := fun empty => (nonempty empty).elim
      onItsWay := fun inside => by rw [window] at inside; contradiction
      enabling := fun inside => by rw [notEnabling] at inside; contradiction }

/-- The receive interrupt works on the other ring and on another status bit. -/
theorem sameTx_usartReceive
    (u : Usart)
    (c : Byte)
    (parityError : Bool)
    (enabled : u.m.sregI = true) :
    SameTx u
        (u.absorb
          (u.m.interrupt
            (fun entered => (entered.rxCompleteIrq c parityError, [])))) ∧
      (u.m.interrupt
          (fun entered => (entered.rxCompleteIrq c parityError, []))).1.sregI =
        u.m.sregI ∧
      (u.m.interrupt
          (fun entered =>
            (entered.rxCompleteIrq c parityError, []))).1.oldSreg =
        u.m.oldSreg := by
  have bits :
      ∀ {b}, b ≠ upe0 →
        (u.m.io.force .ucsr0a upe0 parityError).bit .ucsr0a b =
          u.m.io.bit .ucsr0a b :=
    fun different => IoFile.bit_force_bit _ _ _ different _
  have udrie :
      (u.m.io.force .ucsr0a upe0 parityError).bit .ucsr0b udrie0 =
        u.m.io.bit .ucsr0b udrie0 :=
    IoFile.bit_force_other _ (by decide) _ _ _
  have udre := @bits udre0 (by decide)
  have txc := @bits txc0 (by decide)
  simp only [Machine.interrupt, Machine.rxCompleteIrq]
  split
  · split <;> exact ⟨⟨rfl, udre, udrie, txc, rfl, rfl⟩, enabled.symm, rfl⟩
  · exact ⟨⟨rfl, udre, udrie, txc, rfl, rfl⟩, enabled.symm, rfl⟩

/-- Handlers that leave the transmitter alone. -/
theorem Environment.of_same
    (same : SameTx before after)
    (location : after.location = before.location)
    (written : after.written = before.written)
    (flags :
      after.m.sregI = before.m.sregI ∧ after.m.oldSreg = before.m.oldSreg ∧
        after.flag = before.flag) :
    Environment before after where
  location := location
  written := written
  flags := flags
  txWr := by rw [same.tx]
  txCells := by rw [same.tx]
  room := by rw [same.tx]; exact id
  off _ := same.tx
  empty empty := by rw [same.tx, same.udre]; exact ⟨empty, id⟩
  idle _ _ idle := same.shifting.trans idle
  onItsWay _ onItsWay := by rw [same.udre, same.shifting]; exact onItsWay
  enabling _ := by rw [same.tx]; exact id

theorem receiveEvent_silent (before after : Machine) (c : Byte) :
    (receiveEvent before after c).writing? = none ∧
      (receiveEvent before after c).finished? = none := by
  rw [receiveEvent]
  split <;> exact ⟨rfl, rfl⟩

theorem Simulates.usartReceive
    {u : Usart}
    (ok : u.TxOk)
    (enabled : u.m.sregI = true)
    (c : Byte)
    (parityError : Bool)
    {result : Machine × List KeyboardEmulator.Event}
    (handled :
      result =
        u.m.interrupt
          (fun entered => (entered.rxCompleteIrq c parityError, []))) :
    Simulates u (u.absorb result, [receiveEvent u.m result.1 c]) := by
  subst handled
  obtain ⟨same, sregI, oldSreg⟩ :=
    sameTx_usartReceive u c parityError enabled
  obtain ⟨noWriting, noFinished⟩ :=
    receiveEvent_silent u.m
      (u.m.interrupt
        (fun entered => (entered.rxCompleteIrq c parityError, []))).1 c
  have stutters :
      TransmitPipeline.Step 63 u.pipe none
        (u.absorb
          (u.m.interrupt
            (fun entered =>
              (entered.rxCompleteIrq c parityError, [])))).pipe := by
    rw [same.pipe rfl]
    exact .stutter
  refine .environment ok (.of_same same rfl rfl ⟨sregI, oldSreg, rfl⟩) ?_
    stutters ?_ rfl ?_
  · intro notEnabling
    rw [same.udrie, same.tx]
    exact ok.udrie notEnabling
  · rw [List.filterMap_cons, noWriting]
    rfl
  · rw [List.filterMap_cons, noFinished]
    rfl

/-- UDR0 moves on to the shift register. -/
theorem Simulates.load
    {u : Usart}
    (ok : u.TxOk)
    (free : u.shifting = none)
    (udre : u.m.udre = false) :
    Simulates u
      ({ u.absorb ({ u.m with io := u.m.io.force .ucsr0a udre0 true }, [])
          with shifting := some u.udr }, []) := by
  have freed : (u.m.io.force .ucsr0a udre0 true).bit .ucsr0a udre0 = true :=
    IoFile.bit_force_same _ _ (by decide) _
  have sameUdrie :
      (u.m.io.force .ucsr0a udre0 true).bit .ucsr0b udrie0 =
        u.m.io.bit .ucsr0b udrie0 :=
    IoFile.bit_force_other _ (by decide) _ _ _
  have sameTxc :
      (u.m.io.force .ucsr0a udre0 true).bit .ucsr0a txc0 =
        u.m.io.bit .ucsr0a txc0 :=
    IoFile.bit_force_bit _ _ _ (by decide) _
  have full : u.pipe.data = some u.udr := by
    simp [Usart.pipe, data, udre]
  have loads :
      TransmitPipeline.Step 63 u.pipe none
        { u.pipe with data := none, shifting := some u.udr } :=
    .load u.udr full free
  have reached :
      Usart.pipe
          { u.absorb ({ u.m with io := u.m.io.force .ucsr0a udre0 true }, [])
            with shifting := some u.udr } =
        { u.pipe with data := none, shifting := some u.udr } := by
    simp only [Usart.pipe, data, txc, Machine.udre, absorb, lastUdr, freed,
      sameTxc, ↓reduceIte]
  rw [← reached] at loads
  refine .environment ok ?_ ?_ loads rfl rfl rfl
  · exact
      { location := rfl
        written := rfl
        flags := ⟨rfl, rfl, rfl⟩
        txWr := rfl
        txCells := rfl
        room := id
        off := fun _ => rfl
        empty := fun empty => ⟨empty, fun _ => freed⟩
        idle := fun _ isFree => by rw [udre] at isFree; contradiction
        onItsWay := fun _ _ _ => Option.some_ne_none _
        enabling := fun _ => id }
  · intro notEnabling
    exact (Iff.of_eq (congrArg (· = true) sameUdrie)).trans
      (ok.udrie notEnabling)

/-- A frame is out, and the shift register free. -/
theorem Environment.finish
    {u : Usart}
    {io : IoFile}
    (udre : io.bit .ucsr0a udre0 = u.m.udre)
    (last : u.location.window = true → u.m.udre = false) :
    Environment u { u with m := { u.m with io := io }, shifting := none } where
  location := rfl
  written := rfl
  flags := ⟨rfl, rfl, rfl⟩
  txWr := rfl
  txCells := rfl
  room := id
  off _ := rfl
  empty empty := ⟨empty, udre.trans⟩
  idle _ _ idle := rfl
  onItsWay inside _ free := by
    have full := last inside
    rw [← udre] at full
    exact absurd free (by rw [Machine.udre, full]; simp)
  enabling _ := id

/-- The last bit of a frame is out and nothing follows. -/
theorem Simulates.finishLast
    {u : Usart}
    {b : Byte}
    (ok : u.TxOk)
    (busy : u.shifting = some b)
    (udre : u.m.udre = true)
    (outside : u.location.window = false) :
    Simulates u
      ({ u with
          m := { u.m with io := u.m.io.force .ucsr0a txc0 true }
          shifting := none },
        [.finished b]) := by
  have sameUdre :
      (u.m.io.force .ucsr0a txc0 true).bit .ucsr0a udre0 = u.m.udre :=
    IoFile.bit_force_bit _ _ _ (by decide) _
  have sameUdrie :
      (u.m.io.force .ucsr0a txc0 true).bit .ucsr0b udrie0 = u.m.udrie :=
    IoFile.bit_force_other _ (by decide) _ _ _
  have complete : (u.m.io.force .ucsr0a txc0 true).bit .ucsr0a txc0 = true :=
    IoFile.bit_force_same _ _ (by decide) _
  have reached :
      Usart.pipe
          { u with
            m := { u.m with io := u.m.io.force .ucsr0a txc0 true }
            shifting := none } =
        { u.pipe with
          shifting := none
          complete := u.pipe.complete || u.pipe.data.isNone } := by
    simp only [Usart.pipe, data, txc, outside]
    simp [Machine.udre, sameUdre, complete, show u.m.io.bit .ucsr0a udre0 =
      true from udre]
  have finishes :
      TransmitPipeline.Step 63 u.pipe (some (.finished b))
        { u.pipe with
          shifting := none
          complete := u.pipe.complete || u.pipe.data.isNone } :=
    .finish b busy
  rw [← reached] at finishes
  refine .environment ok (.finish sameUdre ?_) ?_ finishes rfl rfl rfl
  · intro inside
    rw [outside] at inside
    contradiction
  · intro notEnabling
    exact (Iff.of_eq (congrArg (· = true) sameUdrie)).trans
      (ok.udrie notEnabling)

/-- A frame is out and the next one waits in UDR0. -/
theorem Simulates.finishNext
    {u : Usart}
    {b : Byte}
    (ok : u.TxOk)
    (busy : u.shifting = some b)
    (udre : u.m.udre = false) :
    Simulates u ({ u with shifting := none }, [.finished b]) := by
  have reached :
      Usart.pipe { u with shifting := none } =
        { u.pipe with
          shifting := none
          complete := u.pipe.complete || u.pipe.data.isNone } := by
    simp [Usart.pipe, data, txc, udre]
  have finishes :
      TransmitPipeline.Step 63 u.pipe (some (.finished b))
        { u.pipe with
          shifting := none
          complete := u.pipe.complete || u.pipe.data.isNone } :=
    .finish b busy
  rw [← reached] at finishes
  exact .environment ok (.finish rfl (fun _ => udre)) ok.udrie finishes rfl
    rfl rfl

/-! ## Runs -/

theorem inWindow_eq (u : Usart) : u.inWindow = u.location.window := by
  rw [inWindow]
  cases u.location with
  | write c position =>
      cases position <;> rfl
  | _ =>
      rfl

/-- One step of the method that runs. -/
theorem Simulates.runStep
    {u : Usart}
    {past : List (TransmitPipeline.Label Byte)}
    (ok : u.TxOk)
    (accounts : TransmitPipeline.Accounts past u.pipe) :
    Simulates u u.runStep := by
  cases here : u.location with
  | code opening todo loaded =>
      rw [Usart.runStep, here]
      exact .codeStep ok here
  | flush ending position =>
      rw [Usart.runStep, here]
      exact .flushStep ok accounts here
  | write c position =>
      rw [Usart.runStep, here]
      exact .writeStep ok here
  | _ =>
      exact .readingStep ok (by rw [here]; rfl)

/-- Every step of the system is a step of the transmitter. -/
theorem Simulates.step?
    {u : Usart}
    {past : List (TransmitPipeline.Label Byte)}
    {action : Action}
    {result : Usart × List Event}
    (ok : u.TxOk)
    (accounts : TransmitPipeline.Accounts past u.pipe)
    (quiet : ∀ baud config, action = .call (.begin baud config) → u.Quiet)
    (stepped : u.step? action = some result) :
    Simulates u result := by
  cases step?_inversion stepped with
  | call outside method =>
      exact .enter ok outside method
        (fun baud config isBegin => quiet baud config (congrArg _ isBegin))
  | setFlag outside flag =>
      exact .setFlag ok outside flag
  | run inside =>
      exact .runStep ok accounts
  | dataRegisterEmpty enabled udrie udre =>
      exact .dataRegisterEmpty ok enabled udrie udre
  | usartReceive enabled rxcie c parityError result handled =>
      exact .usartReceive ok enabled c parityError handled
  | load txen free udre =>
      exact .load ok free udre
  | finishLast b busy udre outside =>
      exact .finishLast ok busy udre (by rw [← inWindow_eq]; exact outside)
  | finishNext b busy udre =>
      exact .finishNext ok busy udre

/-- The events so far account for the present state. -/
structure Follows (past : List Event) (u : Usart) : Prop where
  ok : u.TxOk
  account :
    ∃ labels,
      TransmitPipeline.Accounts labels u.pipe ∧
        past.filterMap Event.writing? =
          labels.filterMap TransmitPipeline.Label.accepted? ++
            u.location.uncommitted ∧
          past.filterMap Event.finished? =
            labels.filterMap TransmitPipeline.Label.finished? ∧
            (u.written = true →
              u.location.uncommitted = [] →
                labels.filterMap TransmitPipeline.Label.accepted? ≠ [])

theorem Fresh.follows
    {u : Usart}
    (fresh : u.Fresh) :
    Follows [] u := by
  have quiet : u.Quiet := ⟨fresh.txEmpty, fresh.udre, fresh.idle⟩
  refine ⟨⟨?_, ?_, fun _ => ?_, fun _ => quiet⟩, [],
    TransmitPipeline.accounts_nil quiet.drained, ?_, rfl, ?_⟩
  · rw [fresh.client]
    trivial
  · exact .of_outside (by rw [fresh.client]; rfl) fresh.flag
  · refine iff_of_false ?_ (not_not.mpr quiet.txEmpty)
    rw [Bool.not_eq_true]
    exact fresh.udrie
  · rw [fresh.client]
    rfl
  · rw [fresh.unwritten]
    intro isWritten
    contradiction

theorem Follows.step?
    {past emitted : List Event}
    {u after : Usart}
    {action : Action}
    (follows : Follows past u)
    (quiet : ∀ baud config, action = .call (.begin baud config) → u.Quiet)
    (stepped : u.step? action = some (after, emitted)) :
    Follows (past ++ emitted) after := by
  obtain ⟨labels, accounts, accepted, finished, wrote⟩ := follows.account
  have simulates := Simulates.step? follows.ok accounts quiet stepped
  obtain ⟨label, pipeStep, accepts, finishes⟩ := simulates.pipe
  have acceptedNow :
      (past ++ emitted).filterMap Event.writing? =
        (labels ++ label.toList).filterMap
            TransmitPipeline.Label.accepted? ++
          after.location.uncommitted := by
    rw [List.filterMap_append, List.filterMap_append, accepted,
      List.append_assoc, List.append_assoc, accepts]
  refine ⟨simulates.ok, labels ++ label.toList, accounts.step pipeStep,
    acceptedNow, ?_, fun isWritten committed => ?_⟩
  · rw [List.filterMap_append, List.filterMap_append, finished, finishes]
  · have before := simulates.written isWritten committed
    rw [List.filterMap_append]
    intro nothing
    obtain ⟨noneBefore, noneNow⟩ := List.append_eq_nil_iff.mp nothing
    rw [noneNow, committed, List.append_nil] at accepts
    exact wrote before (List.append_eq_nil_iff.mp accepts).1 noneBefore

/-! ## What was flushed stays so -/

/-- Nothing is on its way, or `flush` or `end` sees to it. -/
def Flushed (u : Usart) : Prop :=
  u.location.writing = false ∧ (u.location.flushing = true ∨ u.Quiet)

/-- Nothing comes on its way but what a client writes. -/
theorem Simulates.quiet
    {u : Usart}
    {result : Usart × List Event}
    (simulates : Simulates u result)
    (quiet : u.Quiet)
    (committed : u.location.uncommitted = [])
    (noWriting : result.2.filterMap Event.writing? = []) :
    result.1.Quiet := by
  obtain ⟨label, pipeStep, accepts, -⟩ := simulates.pipe
  rw [committed, noWriting, List.append_nil] at accepts
  have nothing := (List.append_eq_nil_iff.mp accepts.symm).1
  exact .of_drained (quiet.drained.step pipeStep nothing)

theorem noWriting_runStep (u : Usart) :
    u.runStep.2.filterMap Event.writing? = [] := by
  rw [runStep]
  cases u.location with
  | readTail head | peekTail head =>
      simp only [readStep, peekStep]
      split <;> rfl
  | flush ending position =>
      cases position with
      | ret =>
          rfl
      | _ =>
          simp only [flushStep]
          split <;> rfl
  | write c position =>
      simp only [writeStep]
      split <;> rfl
  | _ =>
      rfl

/-- No method but `write` leads into `write`. -/
theorem writing_runStep
    {u : Usart}
    (notWrite : u.location.writing = false) :
    u.runStep.1.location.writing = false := by
  rw [runStep]
  cases here : u.location with
  | client =>
      rw [here]
      rfl
  | code opening todo loaded =>
      cases todo with
      | nil =>
          cases opening <;> rfl
      | cons access rest =>
          cases access with
          | modify reg keep set =>
              cases loaded <;> rfl
          | _ =>
              rfl
  | readTail head | peekTail head =>
      simp only [readStep, peekStep]
      split <;> rfl
  | flush ending position =>
      cases position with
      | ret =>
          cases ending <;> rfl
      | _ =>
          simp only [flushStep]
          split <;> rfl
  | write c position =>
      rw [here] at notWrite
      contradiction
  | _ =>
      rfl

/-- The loop of `flush` goes on until nothing is on its way. -/
theorem flushing_flushStep
    {u : Usart}
    {ending : Bool}
    {position : FlushAt}
    (ok : u.TxOk)
    (here : u.location = .flush ending position) :
    (u.flushStep ending position).1.location.flushing = true ∨
      (u.flushStep ending position).1.Quiet := by
  have target := ok.position
  rw [here] at target
  cases position with
  | ret =>
      exact .inr (SameTx.quiet (.moved u _ _ _ _ _ _ _) target)
  | _ =>
      rw [Usart.flushStep]
      split <;> exact .inl rfl

theorem uncommitted_of_notWriting
    {location : At}
    (notWrite : location.writing = false) :
    location.uncommitted = [] := by
  cases location with
  | write c position =>
      contradiction
  | _ =>
      rfl

/-- The client calls `flush`, `end`, or another method with nothing on its way. -/
theorem Flushed.enter
    {u : Usart}
    {method : Method}
    (outside : u.inMethod = false)
    (flushed : u.Flushed)
    (notWrite : ∀ c, method ≠ .write c) :
    (u.enter method).1.Flushed := by
  have quiet : u.Quiet := by
    refine flushed.2.resolve_left (fun flushing => ?_)
    rw [client_of_outside outside] at flushing
    contradiction
  cases method with
  | write c =>
      exact absurd rfl (notWrite c)
  | flush | «end» =>
      exact ⟨rfl, .inl rfl⟩
  | _ =>
      exact ⟨rfl, .inr (SameTx.quiet (.moved u _ _ _ _ _ _ _) quiet)⟩

/-- Handlers and hardware leave the position, and put nothing on its way. -/
theorem Flushed.environment
    {u : Usart}
    {result : Usart × List Event}
    (simulates : Simulates u result)
    (flushed : u.Flushed)
    (location : result.1.location = u.location)
    (noWriting : result.2.filterMap Event.writing? = []) :
    result.1.Flushed := by
  obtain ⟨notWrite, flushing | quiet⟩ := flushed
  · exact ⟨location ▸ notWrite, .inl (location ▸ flushing)⟩
  · have committed := uncommitted_of_notWriting notWrite
    exact ⟨location ▸ notWrite,
      .inr (simulates.quiet quiet committed noWriting)⟩

/-- Every step but a call of `write` keeps it so. -/
theorem Flushed.step?
    {u : Usart}
    {action : Action}
    {result : Usart × List Event}
    (ok : u.TxOk)
    (simulates : Simulates u result)
    (flushed : u.Flushed)
    (notWrite : ∀ c, action ≠ .call (.write c))
    (stepped : u.step? action = some result) :
    result.1.Flushed := by
  cases step?_inversion stepped with
  | call outside method =>
      exact .enter outside flushed
        (fun c isWrite => notWrite c (congrArg _ isWrite))
  | run inside =>
      obtain ⟨notWriting, onItsWay⟩ := flushed
      refine ⟨writing_runStep notWriting, ?_⟩
      rcases onItsWay with flushing | quiet
      · cases here : u.location with
        | flush ending position =>
            rw [runStep, here]
            exact flushing_flushStep ok here
        | _ =>
            rw [here] at flushing
            contradiction
      · have committed := uncommitted_of_notWriting notWriting
        exact .inr (simulates.quiet quiet committed (noWriting_runStep u))
  | usartReceive enabled rxcie c parityError result handled =>
      refine flushed.environment simulates rfl ?_
      rw [List.filterMap_cons, (receiveEvent_silent _ _ _).1]
      rfl
  | _ =>
      exact flushed.environment simulates rfl rfl

/-- What the events and the calls so far say about the present state. -/
structure Tracks (phase : Phase) (past : List Event) (u : Usart) : Prop where
  follows : Follows past u
  flushed : phase.flushed = true → u.Flushed

theorem Phase.next_begin
    {phase after : Phase}
    {baud : Nat}
    {config : BitVec 8}
    (allowed : phase.next (.call (.begin baud config)) = some after) :
    phase.flushed = true := by
  rw [Phase.next, Phase.call] at allowed
  split at allowed
  next flushed =>
    exact flushed
  next =>
    contradiction

/-- A call of `write` is noted, and only `flush` and `end` call for a flush. -/
theorem Phase.next_flushed
    {phase after : Phase}
    {action : Action}
    (allowed : phase.next action = some after)
    (flushed : after.flushed = true) :
    (∀ c, action ≠ .call (.write c)) ∧
      (phase.flushed = true ∨ action = .call .flush ∨ action = .call .end) := by
  cases action with
  | call method =>
      cases method with
      | begin baud config =>
          exact ⟨by simp, .inl (next_begin allowed)⟩
      | flush =>
          exact ⟨by simp, .inr (.inl rfl)⟩
      | «end» =>
          exact ⟨by simp, .inr (.inr rfl)⟩
      | write c =>
          rw [Phase.next, Phase.call] at allowed
          split at allowed
          · cases allowed
            contradiction
          · contradiction
      | _ =>
          cases allowed
          exact ⟨by simp, .inl flushed⟩
  | _ =>
      cases allowed
      exact ⟨by simp, .inl flushed⟩

theorem Tracks.quiet
    {phase after : Phase}
    {past : List Event}
    {u : Usart}
    {result : Usart × List Event}
    {action : Action}
    (tracks : Tracks phase past u)
    (allowed : phase.next action = some after)
    (stepped : u.step? action = some result)
    (baud : Nat)
    (config : BitVec 8)
    (isBegin : action = .call (.begin baud config)) :
    u.Quiet := by
  subst isBegin
  have flushed := tracks.flushed (Phase.next_begin allowed)
  cases step?_inversion stepped with
  | call outside =>
      refine flushed.2.resolve_left (fun flushing => ?_)
      rw [client_of_outside outside] at flushing
      contradiction

theorem Tracks.step?
    {phase after : Phase}
    {past : List Event}
    {u next : Usart}
    {emitted : List Event}
    {action : Action}
    (tracks : Tracks phase past u)
    (allowed : phase.next action = some after)
    (stepped : u.step? action = some (next, emitted)) :
    Tracks after (past ++ emitted) next := by
  have quiet := tracks.quiet allowed stepped
  refine ⟨tracks.follows.step? quiet stepped, fun flushed => ?_⟩
  obtain ⟨notWrite, before | isFlush | isEnd⟩ :=
    Phase.next_flushed allowed flushed
  · obtain ⟨labels, accounts, -⟩ := tracks.follows.account
    have simulates :=
      Simulates.step? tracks.follows.ok accounts quiet stepped
    exact (tracks.flushed before).step? tracks.follows.ok simulates notWrite
      stepped
  · subst isFlush
    cases step?_inversion stepped
    exact ⟨rfl, .inl rfl⟩
  · subst isEnd
    cases step?_inversion stepped
    exact ⟨rfl, .inl rfl⟩

theorem Fresh.tracks
    {u : Usart}
    (fresh : u.Fresh) :
    Tracks .beforeBegin [] u := by
  refine ⟨fresh.follows, fun _ => ⟨?_, .inr ?_⟩⟩
  · rw [fresh.client]
    rfl
  · exact ⟨fresh.txEmpty, fresh.udre, fresh.idle⟩

/-- An orderly client's run. -/
theorem Tracks.run?
    {phase last : Phase}
    {past : List Event}
    {u final : Usart}
    {actions : List Action}
    {events : List Event}
    (tracks : Tracks phase past u)
    (orderly : actions.foldlM Phase.next phase = some last)
    (ran : u.run? actions = some (final, events)) :
    Tracks last (past ++ events) final :=
  @LabelledRun.run?_guided _ _ _ Usart.step? _ Phase.next Tracks
    (fun holds allowed stepped => holds.step? allowed stepped) _ _ _ _ _ _ _
    tracks orderly ran

theorem Fresh.run?_tracks
    {start u : Usart}
    {actions : List Action}
    {events : List Event}
    {phase : Phase}
    (fresh : start.Fresh)
    (orderly : actions.foldlM Phase.next Phase.beforeBegin = some phase)
    (ran : start.run? actions = some (u, events)) :
    Tracks phase events u :=
  fresh.tracks.run? orderly ran

theorem Fresh.run?_follows
    {start u : Usart}
    {actions : List Action}
    {events : List Event}
    (fresh : start.Fresh)
    (orderly : Orderly actions)
    (ran : start.run? actions = some (u, events)) :
    Follows events u := by
  obtain ⟨phase, reached⟩ := Option.isSome_iff_exists.mp orderly
  exact (fresh.run?_tracks reached ran).follows

/-! ## What was written is delivered -/

/-- What the events so far say about the bytes written and the interrupt flag. -/
structure Delivery (events : List Event) (u : Usart) : Prop where
  /-- each byte written is out, on its way or about to be taken, in order -/
  flow :
    events.filterMap Event.writing? =
      events.filterMap Event.finished? ++
        (u.shifting.toList ++ u.data.toList ++ u.m.tx.contents) ++
          u.location.uncommitted
  /-- methods leave the interrupt flag as the client set it -/
  flag : u.inMethod = false → u.m.sregI = u.flag

theorem Follows.delivery
    {events : List Event}
    {u : Usart}
    (follows : Follows events u) :
    Delivery events u := by
  obtain ⟨labels, accounts, accepted, finished, _⟩ := follows.account
  constructor
  · rw [accepted, finished, accounts.flow]
    rfl
  · intro outside
    refine follows.ok.flag.outside ?_
    rw [client_of_outside outside]
    rfl

/--
In every run of an orderly client, with interrupts on or off, every byte
written leaves the transmitter once and in the order of the calls.
-/
theorem serial_delivers
    {start u : Usart}
    {actions : List Action}
    {events : List Event}
    (fresh : start.Fresh)
    (orderly : Orderly actions)
    (ran : start.run? actions = some (u, events)) :
    Delivery events u :=
  (fresh.run?_follows orderly ran).delivery

/-- A client opens the port and writes two bytes. -/
def writesTwo : List Action :=
  .call (.begin 9600 HardwareSerial.serial8N1) :: List.replicate 13 .run ++
    .call (.write (BootKeyboard.ascii 'a')) :: List.replicate 10 .run ++
      .call (.write (BootKeyboard.ascii 'b')) :: List.replicate 14 .run

/-- A byte is in the shift register, one in UDR0, and `write` queues a third. -/
def writesThird : List Action :=
  writesTwo ++
    [.load, .dataRegisterEmpty, .call (.write (BootKeyboard.ascii 'c'))] ++
      List.replicate 11 .run

theorem run?_writesThird :
    (powerOn.run? writesThird).isSome = true := by
  decide +kernel

theorem serial_delivers_writesThird :
    Delivery ((powerOn.run? writesThird).get run?_writesThird).2
      ((powerOn.run? writesThird).get run?_writesThird).1 :=
  serial_delivers powerOn_fresh (by decide)
    (Option.some_get run?_writesThird).symm

/-- With nothing on its way and no `write` running, all that was written is out. -/
theorem Delivery.finished_of_quiet
    {events : List Event}
    {u : Usart}
    (delivery : Delivery events u)
    (quiet : u.Quiet)
    (committed : u.location.uncommitted = []) :
    events.filterMap Event.finished? = events.filterMap Event.writing? := by
  have noData : u.data = none := by
    simp only [data, quiet.udre, ↓reduceIte]
  rw [delivery.flow, quiet.shifting, noData,
    Ring.contents_eq_nil_iff.mpr quiet.txEmpty, committed]
  simp

/-- `flush` and `end` have returned. -/
def Event.drained : Event → Bool
  | .flushed | .ended _ => true
  | _ => false

/-- Only there is a return from `flush` or `end` seen. -/
theorem returning_of_drained
    {u : Usart}
    (drained : u.runStep.2.any Event.drained = true) :
    u.location.returning = true := by
  rw [runStep] at drained
  cases here : u.location with
  | readTail head | peekTail head =>
      rw [here] at drained
      simp only [readStep, peekStep] at drained
      split at drained <;> contradiction
  | flush ending position =>
      rw [here] at drained
      cases position with
      | ret =>
          rfl
      | _ =>
          simp only [flushStep] at drained
          split at drained <;> contradiction
  | write c position =>
      rw [here] at drained
      simp only [writeStep] at drained
      split at drained <;> contradiction
  | endHead tail =>
      rfl
  | _ =>
      rw [here] at drained
      contradiction

/-- `flush` and `end` return only where nothing is on its way. -/
theorem quiet_of_drained
    {u : Usart}
    {action : Action}
    {result : Usart × List Event}
    (ok : u.TxOk)
    (stepped : u.step? action = some result)
    (drained : result.2.any Event.drained = true) :
    u.Quiet ∧ u.location.uncommitted = [] := by
  have target := ok.position
  cases step?_inversion stepped with
  | call outside method =>
      cases method <;> contradiction
  | usartReceive enabled rxcie c parityError result handled =>
      rw [receiveEvent] at drained
      split at drained <;> contradiction
  | run =>
      have returning := returning_of_drained drained
      cases here : u.location with
      | flush ending position =>
          rw [here] at target returning
          cases position with
          | ret =>
              exact ⟨target, rfl⟩
          | _ =>
              contradiction
      | endHead tail =>
          rw [here] at target
          exact ⟨target, rfl⟩
      | _ =>
          rw [here] at returning
          contradiction
  | _ =>
      contradiction

/--
When `flush` or `end` returns, every byte written so far has left the shift
register: neither returns early, and `end` cuts nothing off.
-/
theorem drained_delivers
    {start u : Usart}
    {actions : List Action}
    {events : List Event}
    (fresh : start.Fresh)
    (orderly : Orderly actions)
    (ran : start.run? actions = some (u, events))
    {action : Action}
    {result : Usart × List Event}
    (stepped : u.step? action = some result)
    (drained : result.2.any Event.drained = true) :
    u.Quiet ∧
      events.filterMap Event.finished? =
        events.filterMap Event.writing? := by
  have follows := fresh.run?_follows orderly ran
  obtain ⟨quiet, committed⟩ := quiet_of_drained follows.ok stepped drained
  exact ⟨quiet, follows.delivery.finished_of_quiet quiet committed⟩

/-- Both bytes go out while `flush` waits. -/
def flushesTwo : List Action :=
  writesTwo ++
    [.call .flush, .run, .run, .load, .dataRegisterEmpty, .run, .finish, .load,
      .run, .run, .run, .finish, .run, .run]

theorem run?_flushesTwo :
    (powerOn.run? flushesTwo).isSome = true := by
  decide +kernel

theorem step?_flushesTwo :
    (((powerOn.run? flushesTwo).get run?_flushesTwo).1.step?
      .run).isSome = true := by
  decide +kernel

theorem drained_delivers_flushesTwo :
    ((powerOn.run? flushesTwo).get run?_flushesTwo).1.Quiet ∧
      ((powerOn.run? flushesTwo).get run?_flushesTwo).2.filterMap
          Event.finished? =
        ((powerOn.run? flushesTwo).get run?_flushesTwo).2.filterMap
          Event.writing? :=
  @drained_delivers powerOn _ flushesTwo _ powerOn_fresh (by decide)
    (Option.some_get run?_flushesTwo).symm .run _
    (Option.some_get step?_flushesTwo).symm (by decide +kernel)

end Usart

end KeyboardEmulator
