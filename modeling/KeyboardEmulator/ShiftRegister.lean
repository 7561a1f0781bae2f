import KeyboardEmulator.SharedPins

namespace KeyboardEmulator

/-!
# Shift registers on two pins

`shiftOut` and `shiftIn` drive a clock line and write or read a data line.  What
a device on the two lines takes or gives at the edges of the clock is the byte,
bit by bit, whatever interrupt handlers do to other pins in the meantime.
-/

namespace PinBoard

/-! ## The two functions -/

/-- `LSBFIRST`. -/
def lsbFirst : BitVec 8 := 0

/-- `MSBFIRST`. -/
def msbFirst : BitVec 8 := 1

/-- The bit of the byte in round `i`. -/
def roundBit (bitOrder : BitVec 8) (i : Nat) : Nat :=
  if bitOrder = lsbFirst then i else 7 - i

/-- The calls of `shiftOut(dataPin, clockPin, bitOrder, val)`. -/
def shiftOut (dataPin clockPin : Pin) (bitOrder val : BitVec 8) :
    List PinCall :=
  (List.range 8).flatMap
    (fun i =>
      [.digitalWrite dataPin
          (if val &&& bv (roundBit bitOrder i) ≠ 0 then 1 else 0),
        .digitalWrite clockPin high,
        .digitalWrite clockPin low])

/-- The calls of `shiftIn(dataPin, clockPin, bitOrder)`. -/
def shiftIn (dataPin clockPin : Pin) : List PinCall :=
  (List.range 8).flatMap
    (fun _ =>
      [.digitalWrite clockPin high,
        .digitalRead dataPin,
        .digitalWrite clockPin low])

/-- What it returns when `digitalRead` returned these levels. -/
def shiftInValue (bitOrder : BitVec 8) (levels : List Bool) : BitVec 8 :=
  levels.zipIdx.foldl
    (fun value round =>
      let read : BitVec 8 := if round.1 then high else low
      value ||| read <<< roundBit bitOrder round.2)
    0

/-- The bits of a byte, least significant first or last. -/
def byteBits (bitOrder val : BitVec 8) : List Bool :=
  let bits := (List.range 8).map val.getLsbD
  if bitOrder = lsbFirst then bits else bits.reverse

theorem roundBit_lt
    (bitOrder : BitVec 8)
    {i : Nat}
    (inside : i < 8) :
    roundBit bitOrder i < 8 := by
  rw [roundBit]
  split <;> omega

/-- The rounds take the bits in that order. -/
theorem map_roundBit (bitOrder val : BitVec 8) :
    (List.range 8).map (fun i => val.getLsbD (roundBit bitOrder i)) =
      byteBits bitOrder val := by
  rw [byteBits]
  by_cases isLsb : bitOrder = lsbFirst
  · have rounds : roundBit bitOrder = id := by
      funext i
      exact if_pos isLsb
    rw [if_pos isLsb, rounds]
    rfl
  · have rounds : roundBit bitOrder = fun i => 7 - i := by
      funext i
      exact if_neg isLsb
    rw [if_neg isLsb, rounds]
    rfl

/-- `!!(val & (1 << bit))`. -/
theorem written_bit
    (val : BitVec 8)
    {bit : Nat}
    (inside : bit < 8) :
    ((if val &&& bv bit ≠ 0 then 1 else 0 : BitVec 8) != low) =
      val.getLsbD bit := by
  have every :
      ∀ (bit : Fin 8) (val : Fin (2 ^ 8)),
        ((if BitVec.ofFin val &&& bv bit ≠ 0 then 1 else 0 : BitVec 8) !=
            low) =
          (BitVec.ofFin val).getLsbD bit := by
    decide +kernel
  exact every ⟨bit, inside⟩ val.toFin

/-- `shiftIn` puts the bits back together. -/
theorem shiftInValue_byteBits (bitOrder val : BitVec 8) :
    shiftInValue bitOrder (byteBits bitOrder val) = val := by
  have every :
      ∀ (least : Bool) (val : Fin (2 ^ 8)),
        shiftInValue (if least then lsbFirst else msbFirst)
            (byteBits (if least then lsbFirst else msbFirst)
              (BitVec.ofFin val)) =
          BitVec.ofFin val := by
    decide +kernel
  by_cases isLsb : bitOrder = lsbFirst
  · rw [isLsb]
    exact every true val.toFin
  · -- every other order is taken for `MSBFIRST`
    have sameRounds : roundBit bitOrder = roundBit msbFirst := by
      funext i
      rw [roundBit, roundBit, if_neg isLsb, if_neg (by decide)]
    have sameBits : byteBits bitOrder val = byteBits msbFirst val := by
      rw [byteBits, byteBits, if_neg isLsb, if_neg (by decide)]
    have sameValue :
        shiftInValue bitOrder (byteBits bitOrder val) =
          shiftInValue msbFirst (byteBits msbFirst val) := by
      rw [shiftInValue, shiftInValue, sameBits, sameRounds]
    exact sameValue.trans (every false val.toFin)

/-! ## A device on two lines -/

/-- The level of a line; one that the board does not drive counts as low. -/
def lineLevel (pins : Pin → PinState) (pin : Pin) : Bool :=
  (pins pin).output && (pins pin).latch

structure Device where
  /-- the clock line as the device saw it last -/
  clock : Bool
  /-- the data line at each rising edge of the clock line -/
  edges : List Bool
  deriving Repr, DecidableEq

/-- What the device makes of the lines as they are. -/
def Device.see
    (dataPin clockPin : Pin)
    (device : Device)
    (pins : Pin → PinState) : Device where
  clock := lineLevel pins clockPin
  edges :=
    if lineLevel pins clockPin && !device.clock then
      device.edges ++ [lineLevel pins dataPin]
    else
      device.edges

/-- The device while these stores are made. -/
def Device.watch
    (dataPin clockPin : Pin)
    (pins : Pin → PinState)
    (device : Device) : List PinOp → Device
  | [] => device
  | op :: rest =>
      watch dataPin clockPin (op.apply pins)
        (device.see dataPin clockPin (op.apply pins)) rest

/-- The device drives the data line: behind the `n`-th edge it shows `out n`. -/
def Device.Shows
    (dataPin clockPin : Pin)
    (out : Nat → Bool)
    (pins : Pin → PinState)
    (device : Device) : List Event → Prop
  | [] => True
  | .hasRead pin level :: rest =>
      (pin = dataPin → level = out device.edges.length) ∧
        Shows dataPin clockPin out pins device rest
  | .byProgram op :: rest | .byHandler op :: rest =>
      Shows dataPin clockPin out (op.apply pins)
        (device.see dataPin clockPin (op.apply pins)) rest

instance decidableShows
    (dataPin clockPin : Pin)
    (out : Nat → Bool)
    (pins : Pin → PinState)
    (device : Device) :
    (events : List Event) →
      Decidable (device.Shows dataPin clockPin out pins events)
  | [] => isTrue trivial
  | .hasRead pin level :: rest =>
      have := decidableShows dataPin clockPin out pins device rest
      inferInstanceAs
        (Decidable
          ((pin = dataPin → level = out device.edges.length) ∧
            device.Shows dataPin clockPin out pins rest))
  | .byProgram op :: rest | .byHandler op :: rest =>
      decidableShows dataPin clockPin out (op.apply pins)
        (device.see dataPin clockPin (op.apply pins)) rest

/-- Not by a handler. -/
def Event.isProgram : Event → Bool
  | .byHandler _ => false
  | _ => true

/-- The level that `digitalRead` found. -/
def Event.level? : Event → Option Bool
  | .hasRead _ level => some level
  | _ => none

section Lines

variable {dataPin clockPin : Pin} {pins other : Pin → PinState}
  {device : Device} {events : List Event}

theorem apply_other
    {op : PinOp}
    {pin : Pin}
    (different : op.pin ≠ pin) :
    op.apply pins pin = pins pin := by
  cases op <;> exact Function.update_of_ne different.symm _ _

/-- A store changes a pin in the same way wherever the pin is the same. -/
theorem apply_congr
    (op : PinOp)
    {pin : Pin}
    (same : pins pin = other pin) :
    op.apply pins pin = op.apply other pin := by
  by_cases isPin : op.pin = pin
  · cases op with
    | direction | latch =>
        rw [← isPin] at same ⊢
        simp only [PinOp.apply, PinOp.pin, Function.update_self] at same ⊢
        rw [same]
  · rw [apply_other isPin, apply_other isPin, same]

theorem lineLevel_congr
    {pin : Pin}
    (same : pins pin = other pin) :
    lineLevel pins pin = lineLevel other pin := by
  rw [lineLevel, lineLevel, same]

/-- The device sees the two lines and nothing else. -/
theorem see_congr
    (sameData : pins dataPin = other dataPin)
    (sameClock : pins clockPin = other clockPin) :
    device.see dataPin clockPin pins = device.see dataPin clockPin other := by
  rw [Device.see, Device.see, lineLevel_congr sameData,
    lineLevel_congr sameClock]

/-- While the clock line stays as it is, so does the device. -/
theorem see_same
    (same : lineLevel pins clockPin = device.clock) :
    device.see dataPin clockPin pins = device := by
  rw [Device.see, same, Bool.and_not_self]
  rfl

/-- Handlers stay off the two lines. -/
def OffLines (dataPin clockPin : Pin) (events : List Event) : Prop :=
  ∀ op, .byHandler op ∈ events → op.pin ≠ dataPin ∧ op.pin ≠ clockPin

/-- Then the device watches the program alone. -/
theorem watch_isProgram
    (off : OffLines dataPin clockPin events)
    (synced : device.clock = lineLevel pins clockPin)
    (sameData : pins dataPin = other dataPin)
    (sameClock : pins clockPin = other clockPin) :
    device.watch dataPin clockPin pins (events.filterMap Event.op?) =
      device.watch dataPin clockPin other
        ((events.filter Event.isProgram).filterMap Event.op?) := by
  induction events generalizing pins other device with
  | nil =>
      rfl
  | cons event rest inductionHypothesis =>
      have offRest : OffLines dataPin clockPin rest :=
        fun op member => off op (List.mem_cons_of_mem _ member)
      cases event with
      | byProgram op =>
          have data := apply_congr op sameData
          have clock := apply_congr op sameClock
          have seen :
              device.see dataPin clockPin (op.apply pins) =
                device.see dataPin clockPin (op.apply other) :=
            see_congr data clock
          change
            (device.see dataPin clockPin (op.apply pins)).watch dataPin clockPin
                (op.apply pins) (rest.filterMap Event.op?) =
              (device.see dataPin clockPin (op.apply other)).watch dataPin
                clockPin (op.apply other)
                ((rest.filter Event.isProgram).filterMap Event.op?)
          rw [← seen]
          exact inductionHypothesis offRest rfl data clock
      | byHandler op =>
          obtain ⟨offData, offClock⟩ := off op List.mem_cons_self
          have clock : op.apply pins clockPin = pins clockPin :=
            apply_other offClock
          have unseen :
              device.see dataPin clockPin (op.apply pins) = device :=
            see_same ((lineLevel_congr clock).trans synced.symm)
          change
            (device.see dataPin clockPin (op.apply pins)).watch dataPin clockPin
                (op.apply pins) (rest.filterMap Event.op?) =
              device.watch dataPin clockPin other
                ((rest.filter Event.isProgram).filterMap Event.op?)
          rw [unseen]
          exact inductionHypothesis offRest
            (synced.trans (lineLevel_congr clock).symm)
            ((apply_other offData).trans sameData) (clock.trans sameClock)
      | hasRead pin level =>
          exact inductionHypothesis offRest synced sameData sameClock

/-- And shows what it shows to the program alone. -/
theorem shows_isProgram
    {out : Nat → Bool}
    (off : OffLines dataPin clockPin events)
    (synced : device.clock = lineLevel pins clockPin)
    (sameData : pins dataPin = other dataPin)
    (sameClock : pins clockPin = other clockPin)
    (shows_ : device.Shows dataPin clockPin out pins events) :
    device.Shows dataPin clockPin out other
      (events.filter Event.isProgram) := by
  induction events generalizing pins other device with
  | nil =>
      trivial
  | cons event rest inductionHypothesis =>
      have offRest : OffLines dataPin clockPin rest :=
        fun op member => off op (List.mem_cons_of_mem _ member)
      cases event with
      | byProgram op =>
          have data := apply_congr op sameData
          have clock := apply_congr op sameClock
          have seen :
              device.see dataPin clockPin (op.apply pins) =
                device.see dataPin clockPin (op.apply other) :=
            see_congr data clock
          change
            (device.see dataPin clockPin (op.apply other)).Shows dataPin
              clockPin out (op.apply other) (rest.filter Event.isProgram)
          rw [← seen]
          exact inductionHypothesis offRest rfl data clock shows_
      | byHandler op =>
          obtain ⟨offData, offClock⟩ := off op List.mem_cons_self
          have clock : op.apply pins clockPin = pins clockPin :=
            apply_other offClock
          have unseen :
              device.see dataPin clockPin (op.apply pins) = device :=
            see_same ((lineLevel_congr clock).trans synced.symm)
          rw [Device.Shows, unseen] at shows_
          exact inductionHypothesis offRest
            (synced.trans (lineLevel_congr clock).symm)
            ((apply_other offData).trans sameData) (clock.trans sameClock)
            shows_
      | hasRead pin level =>
          exact ⟨shows_.1,
            inductionHypothesis offRest synced sameData sameClock shows_.2⟩

end Lines

/-! ## Runs of a program that makes these calls -/

section Runs

variable {start final : PinBoard} {actions : List Action}
  {events : List Event} {dataPin clockPin : Pin}

/-- What the program does, among all that is done. -/
theorem filter_deeds (order : List (Doer × PinCall)) :
    (order.flatMap deeds).filter (fun deed => deed.1 == .program) =
      ((callsBy .program order).flatMap programDeeds).map
        (Prod.mk Doer.program) := by
  induction order with
  | nil =>
      rfl
  | cons made rest inductionHypothesis =>
      obtain ⟨doer, call⟩ := made
      rw [List.flatMap_cons, List.filter_append, inductionHypothesis]
      cases doer with
      | program =>
          have kept :
              (deeds (.program, call)).filter
                  (fun deed => deed.1 == .program) =
                (programDeeds call).map (Prod.mk Doer.program) :=
            List.filter_eq_self.mpr (by simp [deeds])
          have first :
              callsBy .program ((.program, call) :: rest) =
                call :: callsBy .program rest :=
            rfl
          rw [kept, first, List.flatMap_cons, List.map_append]
      | handler =>
          have dropped :
              (deeds (.handler, call)).filter
                  (fun deed => deed.1 == .program) =
                [] :=
            List.filter_eq_nil_iff.mpr (by simp [deeds])
          have others :
              callsBy .program ((.handler, call) :: rest) =
                callsBy .program rest :=
            rfl
          rw [dropped, others, List.nil_append]

/-- Between two calls the program has done what its calls are to do. -/
theorem programDeeds_of_run
    (isIdle : start.idle = true)
    (ran : start.run? actions = some (final, events))
    (finalIdle : final.idle = true) :
    (events.filter Event.isProgram).map (fun event => event.deed.2) =
      (callsBy .program (actions.flatMap Action.calls)).flatMap
        programDeeds := by
  obtain ⟨flag, order, inOrder, shown⟩ :=
    (linearizes_of_run isIdle ran).between finalIdle
  have isProgram :
      Event.isProgram =
        (fun deed : Doer × Deed => deed.1 == .program) ∘ Event.deed := by
    funext event
    cases event <;> rfl
  have byProgram :
      (events.filter Event.isProgram).map Event.deed =
        ((callsBy .program order).flatMap programDeeds).map
          (Prod.mk Doer.program) := by
    rw [isProgram, ← List.filter_map, shown, filter_deeds]
  have withoutDoer := congrArg (List.map Prod.snd) byProgram
  rw [List.map_map, List.map_map, inOrder] at withoutDoer
  exact withoutDoer.trans (List.map_id _)

/-- Handlers that store to other pins stay off the lines. -/
theorem offLines_of_run
    (isIdle : start.idle = true)
    (ran : start.run? actions = some (final, events))
    (finalIdle : final.idle = true)
    (elsewhere :
      ∀ call ∈ callsBy .handler (actions.flatMap Action.calls),
        ∀ op ∈ call.ops, op.pin ≠ dataPin ∧ op.pin ≠ clockPin) :
    OffLines dataPin clockPin events := by
  obtain ⟨flag, order, inOrder, shown⟩ :=
    (linearizes_of_run isIdle ran).between finalIdle
  intro op member
  have done : Event.deed (.byHandler op) ∈ order.flatMap deeds := by
    rw [← shown]
    exact List.mem_map_of_mem member
  obtain ⟨⟨doer, call⟩, called, does⟩ := List.mem_flatMap.mp done
  cases doer with
  | program =>
      obtain ⟨deed, -, same⟩ := List.mem_map.mp does
      cases same
  | handler =>
      obtain ⟨deed, isStore, same⟩ := List.mem_map.mp does
      obtain ⟨stored, isOp, rfl⟩ := List.mem_map.mp isStore
      cases same
      have byHandler : call ∈ callsBy .handler order :=
        List.mem_filterMap.mpr ⟨_, called, rfl⟩
      rw [inOrder] at byHandler
      exact elsewhere call byHandler op isOp

/-! ## Shifting out -/

/-- The stores for one bit. -/
def clockedOut (dataPin clockPin : Pin) (bit : Bool) : List PinOp :=
  [.latch dataPin bit, .latch clockPin true, .latch clockPin false]

theorem ops_shiftOut (dataPin clockPin : Pin) (bitOrder val : BitVec 8) :
    (shiftOut dataPin clockPin bitOrder val).flatMap PinCall.ops =
      (byteBits bitOrder val).flatMap (clockedOut dataPin clockPin) := by
  rw [shiftOut, List.flatMap_assoc, ← map_roundBit, List.flatMap_map]
  refine List.flatMap_congr (fun i member => ?_)
  have bit :=
    written_bit val (roundBit_lt bitOrder (List.mem_range.mp member))
  change
    [PinOp.latch dataPin
        ((if val &&& bv (roundBit bitOrder i) ≠ 0 then 1 else 0 : BitVec 8) !=
          low),
      .latch clockPin true, .latch clockPin false] = _
  rw [bit, clockedOut]

/-- The lines are ready for a bit. -/
structure Ready
    (dataPin clockPin : Pin)
    (pins : Pin → PinState) : Prop where
  dataOut : (pins dataPin).output = true
  clockOut : (pins clockPin).output = true
  clockLow : (pins clockPin).latch = false

/-- The device takes the bits that are clocked out. -/
theorem edges_clockedOut
    (different : dataPin ≠ clockPin)
    (bits : List Bool)
    {pins : Pin → PinState}
    (ready : Ready dataPin clockPin pins)
    {device : Device}
    (synced : device.clock = false) :
    (device.watch dataPin clockPin pins
        (bits.flatMap (clockedOut dataPin clockPin))).edges =
      device.edges ++ bits := by
  induction bits generalizing pins device with
  | nil =>
      exact (List.append_nil _).symm
  | cons bit rest inductionHypothesis =>
      obtain ⟨dataOut, clockOut, clockLow⟩ := ready
      let written := (PinOp.latch dataPin bit).apply pins
      let risen := (PinOp.latch clockPin true).apply written
      let fallen := (PinOp.latch clockPin false).apply risen
      have first : device.see dataPin clockPin written = device := by
        refine see_same ?_
        simp [written, lineLevel, PinOp.apply, different.symm, clockLow, synced]
      have second :
          device.see dataPin clockPin risen =
            ⟨true, device.edges ++ [bit]⟩ := by
        simp [risen, written, Device.see, lineLevel, PinOp.apply, different,
          different.symm, dataOut, clockOut, synced]
      have third :
          (Device.mk true (device.edges ++ [bit])).see dataPin clockPin fallen =
            ⟨false, device.edges ++ [bit]⟩ := by
        simp [fallen, Device.see, lineLevel, PinOp.apply]
      have readyAgain : Ready dataPin clockPin fallen := by
        constructor <;>
          simp [fallen, risen, written, PinOp.apply, different, different.symm,
            dataOut, clockOut]
      change
        ((((device.see dataPin clockPin written).see dataPin clockPin
            risen).see dataPin clockPin fallen).watch dataPin clockPin fallen
              (rest.flatMap (clockedOut dataPin clockPin))).edges = _
      rw [first, second, third, inductionHypothesis readyAgain rfl,
        List.append_assoc]
      rfl

/--
A device that takes the data line at each rising edge of the clock line gets the
bits of the bytes shifted out, whatever handlers do to other pins meanwhile.
-/
theorem shiftOut_taken
    (isIdle : start.idle = true)
    (ran : start.run? actions = some (final, events))
    (finalIdle : final.idle = true)
    (different : dataPin ≠ clockPin)
    {bitOrder : BitVec 8}
    {vals : List (BitVec 8)}
    (shifts :
      callsBy .program (actions.flatMap Action.calls) =
        vals.flatMap (shiftOut dataPin clockPin bitOrder))
    (elsewhere :
      ∀ call ∈ callsBy .handler (actions.flatMap Action.calls),
        ∀ op ∈ call.ops, op.pin ≠ dataPin ∧ op.pin ≠ clockPin)
    (ready : Ready dataPin clockPin start.io.pins)
    {device : Device}
    (synced : device.clock = false) :
    (device.watch dataPin clockPin start.io.pins
        (events.filterMap Event.op?)).edges =
      device.edges ++ vals.flatMap (byteBits bitOrder) := by
  have lowClock : device.clock = lineLevel start.io.pins clockPin := by
    rw [synced, lineLevel, ready.clockLow, Bool.and_false]
  have byProgram :
      (events.filter Event.isProgram).filterMap Event.op? =
        (vals.flatMap (byteBits bitOrder)).flatMap
          (clockedOut dataPin clockPin) := by
    rw [op?_eq, programDeeds_of_run isIdle ran finalIdle, shifts,
      List.filterMap_flatMap]
    simp only [filterMap_programDeeds, List.flatMap_assoc, ops_shiftOut]
  rw [watch_isProgram (offLines_of_run isIdle ran finalIdle elsewhere) lowClock
    rfl rfl, byProgram, edges_clockedOut different _ ready synced]

/-- Two lines on the last two pins. -/
def dataLine : Pin := Fin.castSucc (Fin.last 18)

def clockLine : Pin := Fin.last 19

/-- A board with these pins as outputs. -/
def twoLines (output : List Pin) : PinBoard :=
  { cleared with
    io := cleared.io.execute
      (output.map (fun pin => PinOp.access (.direction pin true))) }

/-- The accesses of a call, with a handler that writes to another pin. -/
def interrupted (call : PinCall) : List Action :=
  [.call call, .run,
    .handler [.digitalWrite (Fin.castSucc (Fin.castSucc (Fin.last 17))) high],
    .run, .run, .run, .run]

/-- A byte is shifted out. -/
def shiftsOut : List Action :=
  (shiftOut dataLine clockLine lsbFirst 0x4d).flatMap interrupted

theorem run?_shiftsOut :
    ((twoLines [dataLine, clockLine]).run? shiftsOut).any
      (fun last => last.1.idle) = true := by
  decide +kernel

theorem shiftOut_taken_shiftsOut :
    ∃ final events,
      (twoLines [dataLine, clockLine]).run? shiftsOut = some (final, events) ∧
        ((⟨false, []⟩ : Device).watch dataLine clockLine
            (twoLines [dataLine, clockLine]).io.pins
            (events.filterMap Event.op?)).edges =
          [true, false, true, true, false, false, true, false] := by
  obtain ⟨⟨final, events⟩, ran, finalIdle⟩ :=
    (Option.any_eq_true _ _).mp run?_shiftsOut
  have taken :=
    @shiftOut_taken _ final shiftsOut events dataLine clockLine (by decide) ran
      finalIdle (by decide) lsbFirst [0x4d] (by decide +kernel)
      (by decide +kernel)
      ⟨by decide +kernel, by decide +kernel, by decide +kernel⟩ ⟨false, []⟩ rfl
  have bits :
      [] ++ [(0x4d : BitVec 8)].flatMap (byteBits lsbFirst) =
        [true, false, true, true, false, false, true, false] := by
    decide +kernel
  exact ⟨final, events, ran, taken.trans bits⟩

/-! ## Shifting in -/

/-- What the program does for one bit. -/
def clockedIn (dataPin clockPin : Pin) : List Deed :=
  [.store (.latch clockPin true), .read dataPin,
    .store (.latch clockPin false)]

theorem eq_byProgram
    {event : Event}
    {op : PinOp}
    (isProgram : event.isProgram = true)
    (stores : event.deed.2 = .store op) :
    event = .byProgram op := by
  cases event with
  | byProgram other =>
      cases stores
      rfl
  | byHandler other =>
      contradiction
  | hasRead pin level =>
      contradiction

/-- The levels that `digitalRead` finds are those that the device shows. -/
theorem levels_clockedIn
    (rounds : List Nat)
    {out : Nat → Bool}
    {pins : Pin → PinState}
    (clockOut : (pins clockPin).output = true)
    {device : Device}
    (synced : device.clock = false)
    (isProgram : ∀ event ∈ events, event.isProgram = true)
    (clocked :
      events.map (fun event => event.deed.2) =
        rounds.flatMap (fun _ => clockedIn dataPin clockPin))
    (shows_ : device.Shows dataPin clockPin out pins events) :
    events.filterMap Event.level? =
      (List.range rounds.length).map
        (fun i => out (device.edges.length + 1 + i)) := by
  induction rounds generalizing events pins device with
  | nil =>
      rw [List.map_eq_nil_iff.mp clocked]
      rfl
  | cons round rest inductionHypothesis =>
      obtain ⟨rise, afterRise, rfl, isRise, readNext⟩ :=
        List.map_eq_cons_iff.mp clocked
      obtain ⟨read, afterRead, rfl, isRead, fallNext⟩ :=
        List.map_eq_cons_iff.mp readNext
      obtain ⟨fall, later, rfl, isFall, clockedLater⟩ :=
        List.map_eq_cons_iff.mp fallNext
      obtain ⟨programRise, byProgram⟩ := List.forall_mem_cons.mp isProgram
      obtain ⟨programFall, byProgramLater⟩ :=
        List.forall_mem_cons.mp (List.forall_mem_cons.mp byProgram).2
      obtain rfl := eq_byProgram programRise isRise
      obtain rfl := eq_byProgram programFall isFall
      let risen := (PinOp.latch clockPin true).apply pins
      let fallen := (PinOp.latch clockPin false).apply risen
      have first :
          device.see dataPin clockPin risen =
            ⟨true, device.edges ++ [lineLevel risen dataPin]⟩ := by
        simp [risen, Device.see, lineLevel, PinOp.apply, clockOut, synced]
      have second (edges : List Bool) :
          (Device.mk true edges).see dataPin clockPin fallen =
            ⟨false, edges⟩ := by
        simp [fallen, Device.see, lineLevel, PinOp.apply]
      have stillOut : (fallen clockPin).output = true := by
        simp [fallen, risen, PinOp.apply, clockOut]
      cases read with
      | hasRead pin level =>
          cases isRead
          rw [Device.Shows, first, Device.Shows, Device.Shows, second] at shows_
          obtain ⟨found, showsLater⟩ := shows_
          have onward :=
            inductionHypothesis stillOut rfl byProgramLater clockedLater
              showsLater
          rw [List.length_append, List.length_singleton] at found onward
          change level :: later.filterMap Event.level? = _
          rw [onward, found rfl, List.length_cons, List.range_succ_eq_map,
            List.map_cons, List.map_map]
          refine congrArg _ (List.map_congr_left (fun i _ => ?_))
          exact congrArg out (by omega)
      | byProgram op | byHandler op =>
          contradiction

theorem deeds_shiftIn (dataPin clockPin : Pin) :
    (shiftIn dataPin clockPin).flatMap programDeeds =
      (List.range 8).flatMap (fun _ => clockedIn dataPin clockPin) := by
  rw [shiftIn, List.flatMap_assoc]
  rfl

/-- Only the program reads. -/
theorem levels_isProgram (events : List Event) :
    (events.filter Event.isProgram).filterMap Event.level? =
      events.filterMap Event.level? := by
  rw [List.filterMap_filter]
  refine List.filterMap_congr (fun event _ => ?_)
  cases event <;> rfl

/--
`shiftIn` returns the byte whose bits the device puts on the data line behind
the rising edges of the clock line, whatever handlers do to other pins
meanwhile.
-/
theorem shiftIn_collects
    (isIdle : start.idle = true)
    (ran : start.run? actions = some (final, events))
    (finalIdle : final.idle = true)
    (shifts :
      callsBy .program (actions.flatMap Action.calls) =
        shiftIn dataPin clockPin)
    (elsewhere :
      ∀ call ∈ callsBy .handler (actions.flatMap Action.calls),
        ∀ op ∈ call.ops, op.pin ≠ dataPin ∧ op.pin ≠ clockPin)
    (clockOut : (start.io.pins clockPin).output = true)
    (clockLow : (start.io.pins clockPin).latch = false)
    {device : Device}
    (synced : device.clock = false)
    {out : Nat → Bool}
    (shows_ : device.Shows dataPin clockPin out start.io.pins events)
    {bitOrder val : BitVec 8}
    (isVal :
      (List.range 8).map (fun i => out (device.edges.length + 1 + i)) =
        byteBits bitOrder val) :
    shiftInValue bitOrder (events.filterMap Event.level?) = val := by
  have lowClock : device.clock = lineLevel start.io.pins clockPin := by
    rw [synced, lineLevel, clockLow, Bool.and_false]
  have showsProgram :=
    shows_isProgram (offLines_of_run isIdle ran finalIdle elsewhere) lowClock
      rfl rfl shows_
  have clocked :
      (events.filter Event.isProgram).map (fun event => event.deed.2) =
        (List.range 8).flatMap (fun _ => clockedIn dataPin clockPin) := by
    rw [programDeeds_of_run isIdle ran finalIdle, shifts, deeds_shiftIn]
  have levels :
      events.filterMap Event.level? = byteBits bitOrder val := by
    rw [← levels_isProgram,
      levels_clockedIn _ clockOut synced
        (fun _ member => (List.mem_filter.mp member).2) clocked showsProgram,
      List.length_range]
    exact isVal
  rw [levels, shiftInValue_byteBits]

/-- A bit is shifted in, with a handler that writes to another pin. -/
def readsBit (level : Bool) : List Action :=
  interrupted (.digitalWrite clockLine high) ++
    [.call (.digitalRead dataLine), .read level] ++
    interrupted (.digitalWrite clockLine low)

/-- A byte is shifted in. -/
def shiftsIn : List Action :=
  (byteBits msbFirst 0x4d).flatMap readsBit

theorem run?_shiftsIn :
    ((twoLines [clockLine]).run? shiftsIn).isSome = true := by
  decide +kernel

theorem shiftIn_collects_shiftsIn :
    shiftInValue msbFirst
        ((((twoLines [clockLine]).run? shiftsIn).get
          run?_shiftsIn).2.filterMap Event.level?) =
      0x4d :=
  @shiftIn_collects (twoLines [clockLine]) _ shiftsIn _ dataLine clockLine
    (by decide) (Option.some_get run?_shiftsIn).symm (by decide +kernel)
    (by decide +kernel) (by decide +kernel) (by decide +kernel)
    (by decide +kernel) ⟨false, []⟩ rfl
    (fun n => (byteBits msbFirst 0x4d).getD (n - 1) false)
    (by decide +kernel) msbFirst 0x4d (by decide +kernel)

end Runs

end PinBoard

end KeyboardEmulator
