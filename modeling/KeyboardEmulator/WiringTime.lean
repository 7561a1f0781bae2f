import KeyboardEmulator.LabelledRun
import KeyboardEmulator.SerialPorts
import Mathlib.Data.List.Chain

namespace KeyboardEmulator

/-!
# The time since the program started

Timer 0 counts on its own, and its overflow interrupt keeps the counts that
`millis` and `micros` return.  The interrupt may come late, and the timer goes on
while a method reads it.  As long as it is not held off for a whole round of the
timer, `micros` is exact and the error of `millis` does not grow.
-/

namespace Timer0

/-- `clockCyclesPerMicrosecond()`. -/
def clockCyclesPerMicrosecond : Nat :=
  fCpu / 1000000

/-- `MICROSECONDS_PER_TIMER0_OVERFLOW`. -/
def microsecondsPerTimer0Overflow : Nat :=
  64 * 256 / clockCyclesPerMicrosecond

/-- `MILLIS_INC`. -/
def millisInc : Nat :=
  microsecondsPerTimer0Overflow / 1000

/-- `FRACT_INC`. -/
def fractInc : Nat :=
  (microsecondsPerTimer0Overflow % 1000) >>> 3

/-- `FRACT_MAX`. -/
def fractMax : Nat :=
  1000 >>> 3

/--
Where a call is.  `entered` is when it was called and `readAt` when it read the
timer; the code does not know either.
-/
inductive CallAt where
  | client
  | millisRead (entered : Nat) (oldSreg : Bool)
  | millisRestore (entered : Nat) (oldSreg : Bool) (m : BitVec 32)
  | microsCount (entered : Nat) (oldSreg : Bool)
  | microsTimer (entered : Nat) (oldSreg : Bool) (m : BitVec 32)
  | microsFlag
      (entered : Nat)
      (oldSreg : Bool)
      (m : BitVec 32)
      (t : BitVec 8)
      (readAt : Nat)
  | microsRestore
      (entered : Nat)
      (oldSreg : Bool)
      (m : BitVec 32)
      (t : BitVec 8)
      (readAt : Nat)
  deriving Repr, DecidableEq

/-- Time is in ticks of the timer, which are 64 cycles each. -/
structure State where
  ticks : Nat
  /-- `TOV0` -/
  tov : Bool
  overflowCount : BitVec 32
  millis : BitVec 32
  fract : BitVec 8
  sregI : Bool
  location : CallAt
  deriving Repr, DecidableEq

/-- What a step can be seen to do. -/
inductive Event where
  /-- an overflow still waits when the timer is about to overflow again, or it
  ran on by more than a tick between two reads -/
  | late
  | millisGave (entered now : Nat) (m : BitVec 32)
  | microsGave (entered now : Nat) (u : BitVec 32)
  deriving Repr, DecidableEq

inductive Action where
  | tick
  /-- `TIMER0_OVF_vect` -/
  | overflow
  /-- the client sets or clears the interrupt flag -/
  | setI (enable : Bool)
  | callMillis
  | callMicros
  | run
  deriving Repr, DecidableEq

/-- `TCNT0`. -/
def State.tcnt (s : State) : BitVec 8 :=
  BitVec.ofNat 8 s.ticks

/-- The timer has already gone on since a call read it. -/
def State.ranOn (s : State) : Bool :=
  match s.location with
  | .microsFlag _ _ _ _ readAt => readAt != s.ticks
  | _ => false

/-- The timer goes on, whatever the program does. -/
def State.tick (s : State) : State × List Event :=
  ({ s with
      ticks := s.ticks + 1
      tov := s.tov || (s.ticks + 1) % 256 == 0 },
    if (s.ticks % 256 == 254 && s.tov) || s.ranOn then [.late] else [])

/-- The interrupt handler; entering it clears the flag. -/
def State.overflow (s : State) : State :=
  let m := s.millis + BitVec.ofNat 32 millisInc
  let f := s.fract + BitVec.ofNat 8 fractInc
  let s := { s with tov := false, overflowCount := s.overflowCount + 1 }
  if f ≥ BitVec.ofNat 8 fractMax then
    { s with fract := f - BitVec.ofNat 8 fractMax, millis := m + 1 }
  else
    { s with fract := f, millis := m }

/-- One step of the call. -/
def State.runStep (s : State) : State × List Event :=
  match s.location with
  | .client =>
      (s, [])
  | .millisRead entered oldSreg =>
      ({ s with location := .millisRestore entered oldSreg s.millis }, [])
  | .millisRestore entered oldSreg m =>
      ({ s with sregI := oldSreg, location := .client },
        [.millisGave entered s.ticks m])
  | .microsCount entered oldSreg =>
      ({ s with
          location := .microsTimer entered oldSreg s.overflowCount }, [])
  | .microsTimer entered oldSreg m =>
      ({ s with
          location := .microsFlag entered oldSreg m s.tcnt s.ticks }, [])
  | .microsFlag entered oldSreg m t readAt =>
      let m := if s.tov && t < 255 then m + 1 else m
      ({ s with location := .microsRestore entered oldSreg m t readAt }, [])
  | .microsRestore entered oldSreg m t _ =>
      ({ s with sregI := oldSreg, location := .client },
        [.microsGave entered s.ticks
          ((m <<< 8 + t.setWidth 32) *
            BitVec.ofNat 32 (64 / clockCyclesPerMicrosecond))])

/-- No method runs. -/
def State.idle (s : State) : Bool :=
  match s.location with
  | .client => true
  | _ => false

/-- One step; `none` when the action is not enabled. -/
def step? (s : State) : Action → Option (State × List Event)
  | .tick =>
      some s.tick
  | .overflow =>
      if s.sregI && s.tov then some (s.overflow, []) else none
  | .setI enable =>
      if s.idle then some ({ s with sregI := enable }, []) else none
  | .callMillis =>
      if s.idle then
        some
          ({ s with
              sregI := false
              location := .millisRead s.ticks s.sregI }, [])
      else
        none
  | .callMicros =>
      if s.idle then
        some
          ({ s with
              sregI := false
              location := .microsCount s.ticks s.sregI }, [])
      else
        none
  | .run =>
      if s.idle then none else some s.runStep

/-- Runs of the timer and a client. -/
abbrev run? : State → List Action → Option (State × List Event) :=
  LabelledRun.run? step?

/-- After `init` has started the timer. -/
def started : State where
  ticks := 0
  tov := false
  overflowCount := 0
  millis := 0
  fract := 0
  sregI := true
  location := .client

/-! ## What the counts are -/

/-- The counts after `h` overflows, of which the last may still wait. -/
structure Counts (s : State) (h : Nat) : Prop where
  due : h + s.tov.toNat = s.ticks / 256
  overflowCount : s.overflowCount = BitVec.ofNat 32 h
  /-- an overflow is 1.024 milliseconds -/
  millis : s.millis = BitVec.ofNat 32 (1024 * h / 1000)
  fract : s.fract = BitVec.ofNat 8 (1024 * h % 1000 / 8)

/-- The handler counts one overflow more, and loses nothing. -/
theorem Counts.overflow
    {s : State}
    {h : Nat}
    (counts : Counts s h)
    (waits : s.tov = true) :
    Counts s.overflow (h + 1) := by
  have due := counts.due
  rw [waits] at due
  have small : (1024 * h % 1000 / 8) + 3 < 256 := by omega
  have fract :
      s.fract + BitVec.ofNat 8 fractInc =
        BitVec.ofNat 8 (1024 * h % 1000 / 8 + 3) := by
    rw [counts.fract, BitVec.ofNat_add]
    rfl
  have toNat :
      (BitVec.ofNat 8 (1024 * h % 1000 / 8 + 3)).toNat =
        1024 * h % 1000 / 8 + 3 := by
    rw [BitVec.toNat_ofNat, Nat.mod_eq_of_lt small]
  have count :
      s.overflowCount + 1 = BitVec.ofNat 32 (h + 1) := by
    rw [counts.overflowCount, BitVec.ofNat_add]
    rfl
  have millis :
      s.millis + BitVec.ofNat 32 millisInc =
        BitVec.ofNat 32 (1024 * h / 1000 + 1) := by
    rw [counts.millis, BitVec.ofNat_add]
    rfl
  rw [State.overflow, fract, millis, count]
  by_cases carries :
      BitVec.ofNat 8 (1024 * h % 1000 / 8 + 3) ≥ BitVec.ofNat 8 fractMax
  · have most : 125 ≤ 1024 * h % 1000 / 8 + 3 := by
      rw [← toNat]
      exact carries
    have next : 1024 * (h + 1) / 1000 = 1024 * h / 1000 + 1 + 1 := by omega
    have left :
        1024 * (h + 1) % 1000 / 8 = 1024 * h % 1000 / 8 + 3 - 125 := by
      omega
    have subtracted :
        BitVec.ofNat 8 (1024 * h % 1000 / 8 + 3) - BitVec.ofNat 8 fractMax =
          BitVec.ofNat 8 (1024 * h % 1000 / 8 + 3 - 125) := by
      apply BitVec.eq_of_toNat_eq
      rw [BitVec.toNat_sub_of_le carries, toNat, BitVec.toNat_ofNat]
      exact (Nat.mod_eq_of_lt (by omega)).symm
    rw [if_pos carries]
    refine ⟨due, rfl, ?_, ?_⟩
    · rw [next]
      exact (BitVec.ofNat_add _ 1).symm
    · rw [left]
      exact subtracted
  · have fewer : ¬ 125 ≤ 1024 * h % 1000 / 8 + 3 := by
      rw [← toNat]
      exact carries
    have next : 1024 * (h + 1) / 1000 = 1024 * h / 1000 + 1 := by omega
    have left :
        1024 * (h + 1) % 1000 / 8 = 1024 * h % 1000 / 8 + 3 := by
      omega
    rw [if_neg carries]
    refine ⟨due, rfl, ?_, ?_⟩
    · rw [next]
    · rw [left]

/-! ## What the calls return -/

/-- Milliseconds that are never ahead, and behind by less than 3.048. -/
def MillisWithin (entered now : Nat) (m : BitVec 32) : Prop :=
  ∃ v, m = BitVec.ofNat 32 v ∧ 1000 * v ≤ 4 * now ∧
    4 * entered < 1000 * v + 3048

/-- The microseconds of a moment during the call. -/
def MicrosWithin (entered now : Nat) (u : BitVec 32) : Prop :=
  ∃ at', entered ≤ at' ∧ at' ≤ now ∧ u = BitVec.ofNat 32 (4 * at')

/-- What a call returned is right. -/
def Event.Right : Event → Prop
  | .late => True
  | .millisGave entered now m => MillisWithin entered now m
  | .microsGave entered now u => MicrosWithin entered now u

/-- The timer was read in this tick, or in the last one. -/
def State.ReadLast (s : State) (readAt : Nat) : Prop :=
  s.ticks = readAt ∨
    s.ticks = readAt + 1 ∧ (s.ticks % 256 = 0 → s.tov = true)

/-- What a call knows. -/
def PositionOk (s : State) : CallAt → Prop
  | .client =>
      True
  | .millisRead entered _ =>
      entered ≤ s.ticks
  | .millisRestore entered _ m =>
      MillisWithin entered s.ticks m
  | .microsCount entered _ =>
      s.sregI = false ∧ entered ≤ s.ticks
  | .microsTimer entered _ m =>
      s.sregI = false ∧ entered ≤ s.ticks ∧ m = s.overflowCount
  | .microsFlag entered _ m t readAt =>
      s.sregI = false ∧ entered ≤ readAt ∧ m = s.overflowCount ∧
        t = BitVec.ofNat 8 readAt ∧ s.ReadLast readAt
  | .microsRestore entered _ m t readAt =>
      entered ≤ readAt ∧ readAt ≤ s.ticks ∧
        m = BitVec.ofNat 32 (readAt / 256) ∧ t = BitVec.ofNat 8 readAt

/-- What holds in every state as long as nothing was late. -/
structure Ok (s : State) : Prop where
  counts : ∃ h, Counts s h
  /-- no overflow waits when the next one is near -/
  served : s.ticks % 256 = 255 → s.tov = false
  position : PositionOk s s.location

theorem millisWithin_of_counts
    {s : State}
    {h entered : Nat}
    (counts : Counts s h)
    (before : entered ≤ s.ticks) :
    MillisWithin entered s.ticks s.millis := by
  have due := counts.due
  have atMost : s.tov.toNat ≤ 1 := Bool.toNat_le s.tov
  exact ⟨1024 * h / 1000, counts.millis, by omega, by omega⟩

theorem MillisWithin.later
    {entered now later : Nat}
    {m : BitVec 32}
    (within : MillisWithin entered now m)
    (after : now ≤ later) :
    MillisWithin entered later m := by
  obtain ⟨v, isMillis, notAhead, behind⟩ := within
  exact ⟨v, isMillis, by omega, behind⟩

/--
The count that `micros` completes: an overflow that waits is one before the
timer was read, unless the timer was about to overflow then.
-/
theorem count_of_flag
    {s : State}
    {h readAt : Nat}
    (counts : Counts s h)
    (served : s.ticks % 256 = 255 → s.tov = false)
    (near : s.ReadLast readAt) :
    (if s.tov && decide (BitVec.ofNat 8 readAt < 255) then
      s.overflowCount + 1
    else
      s.overflowCount) = BitVec.ofNat 32 (readAt / 256) := by
  have due := counts.due
  have below :
      (BitVec.ofNat 8 readAt < 255) ↔ readAt % 256 < 255 := by
    rw [BitVec.lt_def, BitVec.toNat_ofNat]
    rfl
  cases waits : s.tov with
  | false =>
      rw [waits, Bool.toNat_false] at due
      have count : h = readAt / 256 := by
        rcases near with now | ⟨next, flagged⟩
        · omega
        · have noOverflow : s.ticks % 256 ≠ 0 := by
            intro overflowed
            rw [flagged overflowed] at waits
            contradiction
          omega
      rw [Bool.false_and, if_neg Bool.false_ne_true, counts.overflowCount,
        count]
  | true =>
      rw [waits, Bool.toNat_true] at due
      have notServed : s.ticks % 256 ≠ 255 := by
        intro isNear
        rw [served isNear] at waits
        contradiction
      rw [Bool.true_and]
      by_cases isBelow : readAt % 256 < 255
      · have count : h + 1 = readAt / 256 := by
          rcases near with now | ⟨next, -⟩ <;> omega
        rw [if_pos (decide_eq_true (below.mpr isBelow)),
          counts.overflowCount, ← count, BitVec.ofNat_add]
        rfl
      · have count : h = readAt / 256 := by
          rcases near with now | ⟨next, -⟩ <;> omega
        rw [if_neg (fun less => isBelow (below.mp (of_decide_eq_true less))),
          counts.overflowCount, count]

/-- The count and the timer together are the time in microseconds. -/
theorem micros_of_count (readAt : Nat) :
    (BitVec.ofNat 32 (readAt / 256) <<< 8 +
        (BitVec.ofNat 8 readAt).setWidth 32) *
      BitVec.ofNat 32 (64 / clockCyclesPerMicrosecond) =
        BitVec.ofNat 32 (4 * readAt) := by
  apply BitVec.eq_of_toNat_eq
  have fourth : 64 / clockCyclesPerMicrosecond = 4 := by
    decide
  rw [fourth]
  simp only [BitVec.toNat_mul, BitVec.toNat_add, BitVec.toNat_shiftLeft,
    BitVec.toNat_ofNat, BitVec.toNat_setWidth, Nat.shiftLeft_eq]
  omega

/-! ## Steps -/

/-- A tick that is not late. -/
theorem Ok.tick
    {s : State}
    (ok : Ok s)
    (onTime : Event.late ∉ s.tick.2) :
    Ok s.tick.1 := by
  obtain ⟨⟨h, counts⟩, served, position⟩ := ok
  obtain ⟨inTime, readInTime⟩ :
      ¬ (s.ticks % 256 = 254 ∧ s.tov = true) ∧
        ∀ entered oldSreg m t readAt,
          s.location = .microsFlag entered oldSreg m t readAt →
            readAt = s.ticks := by
    rw [State.tick] at onTime
    split at onTime
    next =>
      exact absurd List.mem_cons_self onTime
    next quiet =>
      simp only [Bool.or_eq_true, Bool.and_eq_true, beq_iff_eq,
        not_or] at quiet
      refine ⟨quiet.1, fun entered oldSreg m t readAt location => ?_⟩
      have ranNot := quiet.2
      rw [State.ranOn, location] at ranNot
      exact by_contra (fun apart => ranNot (bne_iff_ne.mpr apart))
  have due := counts.due
  have tov :
      s.tick.1.tov = (s.tov || (s.ticks + 1) % 256 == 0) := rfl
  refine ⟨⟨h, ⟨?due, counts.overflowCount, counts.millis, counts.fract⟩⟩,
    ?served, ?position⟩
  case due =>
    rw [tov]
    change _ = (s.ticks + 1) / 256
    by_cases overflows : (s.ticks + 1) % 256 = 0
    · have clear : s.tov = false := served (by omega)
      rw [clear] at due ⊢
      rw [Bool.toNat_false] at due
      rw [overflows, Bool.false_or, beq_self_eq_true, Bool.toNat_true]
      omega
    · rw [beq_false_of_ne overflows, Bool.or_false, due]
      omega
  case served =>
    intro near
    change (s.ticks + 1) % 256 = 255 at near
    rw [tov, beq_false_of_ne (by omega), Bool.or_false]
    exact Bool.eq_false_iff.mpr (fun waits => inTime ⟨by omega, waits⟩)
  case position =>
    change PositionOk s.tick.1 s.location
    cases location : s.location with
    | client =>
        trivial
    | millisRead entered oldSreg =>
        rw [location] at position
        exact Nat.le_succ_of_le position
    | millisRestore entered oldSreg m =>
        rw [location] at position
        exact position.later (Nat.le_succ s.ticks)
    | microsCount entered oldSreg =>
        rw [location] at position
        exact ⟨position.1, Nat.le_succ_of_le position.2⟩
    | microsTimer entered oldSreg m =>
        rw [location] at position
        exact ⟨position.1, Nat.le_succ_of_le position.2.1, position.2.2⟩
    | microsFlag entered oldSreg m t readAt =>
        rw [location] at position
        obtain ⟨masked, before, isCount, isTimer, -⟩ := position
        have now := readInTime _ _ _ _ _ location
        refine ⟨masked, before, isCount, isTimer, .inr ⟨?_, ?_⟩⟩
        · rw [now]
          rfl
        · intro overflowed
          change (s.ticks + 1) % 256 = 0 at overflowed
          rw [tov, overflowed, beq_self_eq_true, Bool.or_true]
    | microsRestore entered oldSreg m t readAt =>
        rw [location] at position
        exact ⟨position.1, Nat.le_succ_of_le position.2.1, position.2.2⟩

/-- The handler. -/
theorem Ok.overflow
    {s : State}
    (ok : Ok s)
    (enabled : s.sregI = true)
    (waits : s.tov = true) :
    Ok s.overflow := by
  obtain ⟨⟨h, counts⟩, served, position⟩ := ok
  have ticks : s.overflow.ticks = s.ticks := by
    rw [State.overflow]
    dsimp only
    split <;> rfl
  have location : s.overflow.location = s.location := by
    rw [State.overflow]
    dsimp only
    split <;> rfl
  have tov : s.overflow.tov = false := by
    rw [State.overflow]
    dsimp only
    split <;> rfl
  refine ⟨⟨h + 1, counts.overflow waits⟩, fun _ => tov, ?_⟩
  rw [location]
  cases at' : s.location with
  | client =>
      trivial
  | millisRead entered oldSreg =>
      rw [at'] at position
      change entered ≤ s.overflow.ticks
      rw [ticks]
      exact position
  | millisRestore entered oldSreg m =>
      rw [at'] at position
      change MillisWithin entered s.overflow.ticks m
      rw [ticks]
      exact position
  | microsCount entered oldSreg | microsTimer entered oldSreg m
  | microsFlag entered oldSreg m t readAt =>
      rw [at'] at position
      have masked := position.1
      rw [enabled] at masked
      contradiction
  | microsRestore entered oldSreg m t readAt =>
      rw [at'] at position
      obtain ⟨before, after, rest⟩ := position
      refine ⟨before, ?_, rest⟩
      rw [ticks]
      exact after

/-- Where a call goes next does not change the counts. -/
theorem Ok.goes
    {s : State}
    (ok : Ok s)
    (sregI : Bool)
    {location : CallAt}
    (position :
      PositionOk { s with sregI := sregI, location := location } location) :
    Ok { s with sregI := sregI, location := location } := by
  obtain ⟨h, counts⟩ := ok.counts
  exact ⟨⟨h, counts.due, counts.overflowCount, counts.millis, counts.fract⟩,
    ok.served, position⟩

/-- A step of a call, and what it returns. -/
theorem Ok.runStep
    {s : State}
    (ok : Ok s) :
    Ok s.runStep.1 ∧ ∀ event ∈ s.runStep.2, event.Right := by
  have position := ok.position
  have silent : ∀ event ∈ ([] : List Event), event.Right :=
    fun event member => absurd member List.not_mem_nil
  rw [State.runStep]
  cases location : s.location with
  | client =>
      exact ⟨ok, silent⟩
  | millisRead entered oldSreg =>
      rw [location] at position
      obtain ⟨h, counts⟩ := ok.counts
      exact ⟨ok.goes s.sregI (millisWithin_of_counts counts position), silent⟩
  | millisRestore entered oldSreg m =>
      rw [location] at position
      refine ⟨ok.goes oldSreg trivial, fun event member => ?_⟩
      rw [List.mem_singleton.mp member]
      exact position
  | microsCount entered oldSreg =>
      rw [location] at position
      exact ⟨ok.goes s.sregI ⟨position.1, position.2, rfl⟩, silent⟩
  | microsTimer entered oldSreg m =>
      rw [location] at position
      obtain ⟨masked, before, isCount⟩ := position
      exact ⟨ok.goes s.sregI ⟨masked, before, isCount, rfl, .inl rfl⟩, silent⟩
  | microsFlag entered oldSreg m t readAt =>
      rw [location] at position
      obtain ⟨masked, before, rfl, rfl, near⟩ := position
      obtain ⟨h, counts⟩ := ok.counts
      have after : readAt ≤ s.ticks := by
        rcases near with now | ⟨next, -⟩ <;> omega
      exact ⟨ok.goes s.sregI
        ⟨before, after, count_of_flag counts ok.served near, rfl⟩, silent⟩
  | microsRestore entered oldSreg m t readAt =>
      rw [location] at position
      obtain ⟨before, after, rfl, rfl⟩ := position
      refine ⟨ok.goes oldSreg trivial, fun event member => ?_⟩
      rw [List.mem_singleton.mp member]
      exact ⟨readAt, before, after, micros_of_count readAt⟩

/-- A step that is not late. -/
theorem Ok.step?
    {s next : State}
    {action : Action}
    {events : List Event}
    (ok : Ok s)
    (onTime : Event.late ∉ events)
    (stepped : Timer0.step? s action = some (next, events)) :
    Ok next ∧ ∀ event ∈ events, event.Right := by
  have silent : ∀ event ∈ ([] : List Event), event.Right :=
    fun event member => absurd member List.not_mem_nil
  cases action with
  | tick =>
      obtain ⟨rfl, rfl⟩ := Prod.mk.inj (Option.some.inj stepped)
      refine ⟨ok.tick onTime, fun event member => ?_⟩
      split at member
      · rw [List.mem_singleton.mp member]
        trivial
      · exact absurd member List.not_mem_nil
  | overflow =>
      rw [Timer0.step?] at stepped
      split at stepped
      next enabled =>
        obtain ⟨rfl, rfl⟩ := Prod.mk.inj (Option.some.inj stepped)
        rw [Bool.and_eq_true] at enabled
        exact ⟨ok.overflow enabled.1 enabled.2, silent⟩
      next =>
        contradiction
  | setI enable =>
      rw [Timer0.step?] at stepped
      split at stepped
      next isIdle =>
        obtain ⟨rfl, rfl⟩ := Prod.mk.inj (Option.some.inj stepped)
        have location : s.location = .client := by
          rw [State.idle] at isIdle
          split at isIdle
          next here => exact here
          next => contradiction
        refine ⟨ok.goes enable ?_, silent⟩
        rw [location]
        trivial
      next =>
        contradiction
  | callMillis =>
      rw [Timer0.step?] at stepped
      split at stepped
      next =>
        obtain ⟨rfl, rfl⟩ := Prod.mk.inj (Option.some.inj stepped)
        exact ⟨ok.goes false (Nat.le_refl s.ticks), silent⟩
      next =>
        contradiction
  | callMicros =>
      rw [Timer0.step?] at stepped
      split at stepped
      next =>
        obtain ⟨rfl, rfl⟩ := Prod.mk.inj (Option.some.inj stepped)
        exact ⟨ok.goes false ⟨rfl, Nat.le_refl s.ticks⟩, silent⟩
      next =>
        contradiction
  | run =>
      rw [Timer0.step?] at stepped
      split at stepped
      next =>
        contradiction
      next =>
        obtain ⟨rfl, rfl⟩ := Prod.mk.inj (Option.some.inj stepped)
        exact ok.runStep

theorem started_ok : Ok started :=
  ⟨⟨0, rfl, rfl, rfl, rfl⟩, fun _ => rfl, trivial⟩

/--
Whatever the timer, the handler and the client do, as long as nothing is late:
`micros` returns the microseconds of a moment during the call, and `millis` is
never ahead of the time and behind by less than 3.048 milliseconds, however
long the program has been running.
-/
theorem time_right
    {actions : List Action}
    {final : State}
    {events : List Event}
    (ran : run? started actions = some (final, events))
    (onTime : Event.late ∉ events) :
    ∀ event ∈ events, event.Right := by
  have history :=
    LabelledRun.run?_history
      (fun past s =>
        Event.late ∉ past → Ok s ∧ ∀ event ∈ past, event.Right)
      (fun holds stepped notLate => by
        rw [List.mem_append, not_or] at notLate
        obtain ⟨ok, past⟩ := holds notLate.1
        obtain ⟨okNext, emitted⟩ := ok.step? notLate.2 stepped
        exact ⟨okNext, fun event member =>
          (List.mem_append.mp member).elim (past event) (emitted event)⟩)
      (fun _ => ⟨started_ok, fun event member =>
        absurd member List.not_mem_nil⟩)
      ran
  rw [List.nil_append] at history
  exact (history onTime).2

/-- The timer overflows, the handler waits for `micros`, and both are in time. -/
def firstOverflow : List Action :=
  List.replicate 250 .tick ++ .callMicros :: .run :: List.replicate 7 .tick ++
    [.run, .run, .run, .overflow, .tick, .callMillis, .run, .run]

theorem run?_firstOverflow : (run? started firstOverflow).isSome = true := by
  decide +kernel

theorem time_right_firstOverflow :
    (Event.microsGave 250 257 1028).Right ∧
      (Event.millisGave 258 258 1).Right := by
  have right :=
    @time_right firstOverflow ((run? started firstOverflow).get
        run?_firstOverflow).1
      [.microsGave 250 257 1028, .millisGave 258 258 1]
      (by decide +kernel) (by decide)
  exact ⟨right _ List.mem_cons_self,
    right _ (List.mem_cons_of_mem _ List.mem_cons_self)⟩

/--
An overflow that still waits when the timer is at 255 again is not counted:
`micros` is a whole period early then.
-/
theorem micros_early
    {s : State}
    {h : Nat}
    (counts : Counts s h)
    (isIdle : s.idle = true)
    (waits : s.tov = true)
    (near : s.ticks % 256 = 255) :
    ∃ final,
      run? s [.callMicros, .run, .run, .run, .run] =
        some
          (final,
            [.microsGave s.ticks s.ticks
              (BitVec.ofNat 32 (4 * (s.ticks - 256)))]) := by
  have due := counts.due
  rw [waits, Bool.toNat_true] at due
  have count : s.overflowCount = BitVec.ofNat 32 ((s.ticks - 256) / 256) := by
    have before : h = (s.ticks - 256) / 256 := by omega
    rw [counts.overflowCount, before]
  have timer : s.tcnt = BitVec.ofNat 8 (s.ticks - 256) := by
    apply BitVec.eq_of_toNat_eq
    simp only [State.tcnt, BitVec.toNat_ofNat]
    omega
  have notBelow : (s.tov && decide (s.tcnt < 255)) = false := by
    have isLast : s.tcnt.toNat = 255 := by
      rw [State.tcnt, BitVec.toNat_ofNat]
      exact near
    have notLess : ¬ s.tcnt < 255 := by
      rw [BitVec.lt_def, isLast]
      exact Nat.lt_irrefl _
    rw [decide_eq_false notLess, Bool.and_false]
  have entered :
      step? s .callMicros =
        some
          ({ s with
              sregI := false
              location := .microsCount s.ticks s.sregI }, []) := by
    rw [Timer0.step?, if_pos isIdle]
  have gives :
      (if s.tov && decide (s.tcnt < 255) then s.overflowCount + 1
          else s.overflowCount) <<< 8 + s.tcnt.setWidth 32 =
        BitVec.ofNat 32 ((s.ticks - 256) / 256) <<< 8 +
          (BitVec.ofNat 8 (s.ticks - 256)).setWidth 32 := by
    rw [notBelow, if_neg Bool.false_ne_true, count, timer]
  refine
    ⟨_, LabelledRun.run?_cons_iff.mpr ⟨_, _, _, entered, rfl, ?_⟩⟩
  rw [← micros_of_count, ← gives]
  rfl

/-! ## Waiting -/

/--
The loops of `delay`, with what `micros` returns each time, and what they leave
of it; none while they still wait.
-/
def delayLoop :
    Nat → BitVec 32 → List (BitVec 32) → Option (List (BitVec 32))
  | 0, _, readings =>
      some readings
  | _ + 1, _, [] =>
      none
  | ms + 1, start, u :: readings =>
      if u - start ≥ 1000 then
        delayLoop ms (start + 1000) readings
      else
        delayLoop (ms + 1) start readings

/-- `delay(ms)`. -/
def delay (ms : BitVec 32) : List (BitVec 32) → Option (List (BitVec 32))
  | [] => none
  | start :: readings => delayLoop ms.toNat start readings

/-- Readings of `micros` at these times. -/
def readings (times : List Nat) : List (BitVec 32) :=
  times.map (fun t => BitVec.ofNat 32 t)

/-- Each time is at most a millisecond after the last. -/
def Polled (times : List Nat) : Prop :=
  times.IsChain (fun t t' => t ≤ t' ∧ t' ≤ t + 1000)

/-- What is left when `delay` returns: it stops at the first time in question. -/
def leftFrom (reached : Nat → Bool) : List Nat → Option (List Nat)
  | [] => none
  | t :: times => if reached t then some times else leftFrom reached times

theorem delayLoop_exact
    {ms start last : Nat}
    {times : List Nat}
    (polled : Polled (last :: times))
    (after : start ≤ last)
    (within : last < start + 1000) :
    delayLoop (ms + 1) (BitVec.ofNat 32 start) (readings times) =
      (leftFrom (fun t => start + 1000 * (ms + 1) ≤ t) times).map
        readings := by
  induction times generalizing ms start last with
  | nil =>
      rfl
  | cons t times inductionHypothesis =>
      obtain ⟨next, polledRest⟩ := List.isChain_cons.mp polled
      obtain ⟨ordered, soon⟩ := next t rfl
      have elapsed :
          BitVec.ofNat 32 t - BitVec.ofNat 32 start ≥ 1000 ↔
            start + 1000 ≤ t := by
        rw [ge_iff_le, BitVec.le_def, BitVec.toNat_sub, BitVec.toNat_ofNat,
          BitVec.toNat_ofNat]
        simp only [BitVec.reduceToNat]
        omega
      rw [readings, List.map_cons, delayLoop, leftFrom]
      by_cases counts : start + 1000 ≤ t
      · rw [if_pos (elapsed.mpr counts)]
        cases ms with
        | zero =>
            rw [if_pos (decide_eq_true counts), delayLoop]
            rfl
        | succ ms =>
            have early : ¬ start + 1000 * (ms + 1 + 1) ≤ t := by omega
            have target :
                start + 1000 * (ms + 1 + 1) =
                  start + 1000 + 1000 * (ms + 1) := by
              omega
            have started :
                BitVec.ofNat 32 (start + 1000) =
                  BitVec.ofNat 32 start + 1000 :=
              BitVec.ofNat_add start 1000
            have soonAfter : t < start + 1000 + 1000 := by omega
            rw [if_neg (fun reached => early (of_decide_eq_true reached)),
              target, ← inductionHypothesis polledRest counts soonAfter,
              started]
            rfl
      · have early : ¬ start + 1000 * (ms + 1) ≤ t := by
          intro reached
          have atLeast : 1000 ≤ 1000 * (ms + 1) :=
            Nat.le_mul_of_pos_right 1000 (Nat.succ_pos ms)
          exact counts ((Nat.add_le_add_left atLeast start).trans reached)
        rw [if_neg (fun reached => counts (elapsed.mp reached)),
          if_neg (fun reached => early (of_decide_eq_true reached))]
        have afterStart : start ≤ t := after.trans ordered
        have withinNext : t < start + 1000 := Nat.lt_of_not_le counts
        exact inductionHypothesis polledRest afterStart withinNext

/--
`delay` returns at the first time that it looks at the clock and its
milliseconds are over, however often the microseconds wrap meanwhile, if it
looks at least once a millisecond.
-/
theorem delay_exact
    {ms : BitVec 32}
    (positive : ms ≠ 0)
    {start : Nat}
    {times : List Nat}
    (polled : Polled (start :: times)) :
    delay ms (readings (start :: times)) =
      (leftFrom (fun t => start + 1000 * ms.toNat ≤ t) times).map
        readings := by
  obtain ⟨left, isLeft⟩ : ∃ left, ms.toNat = left + 1 :=
    Nat.exists_eq_succ_of_ne_zero
      (fun none => positive (BitVec.eq_of_toNat_eq none))
  rw [readings, List.map_cons, delay, isLeft]
  exact delayLoop_exact polled (Nat.le_refl _) (by omega)

/-- Two milliseconds while the microseconds wrap. -/
def wrapping : List Nat :=
  [4294966000, 4294966900, 4294967500, 4294968100, 4294968800]

theorem delay_exact_wrapping :
    delay 2 (readings wrapping) = some (readings [4294968800]) :=
  @delay_exact 2 (by decide) 4294966000
    [4294966900, 4294967500, 4294968100, 4294968800] (by
      simp [Polled])

/--
The loop of `Stream::timedRead` and `timedPeek`: what `read` or `peek`, and then
`millis`, return each time; none while it still waits.
-/
def timedLoop
    (startMillis timeout : BitVec 32) :
    List (Int × BitVec 32) → Option Int
  | [] => none
  | (c, now) :: polls =>
      if c ≥ 0 then
        some c
      else if now - startMillis < timeout then
        timedLoop startMillis timeout polls
      else
        some (-1)

/--
It ends with the first character, or with -1 at the first look at the clock
after the timeout, though the milliseconds may wrap.
-/
theorem timedLoop_exact
    {start : Nat}
    {timeout : BitVec 32}
    {polls : List (Int × Nat)}
    (soon : ∀ poll ∈ polls, start ≤ poll.2 ∧ poll.2 < start + 2 ^ 32) :
    timedLoop (BitVec.ofNat 32 start) timeout
        (polls.map (fun poll => (poll.1, BitVec.ofNat 32 poll.2))) =
      (polls.find?
        (fun poll =>
          decide (0 ≤ poll.1) ||
            decide (start + timeout.toNat ≤ poll.2))).map
        (fun poll => if 0 ≤ poll.1 then poll.1 else -1) := by
  induction polls with
  | nil =>
      rfl
  | cons poll polls inductionHypothesis =>
      obtain ⟨c, t⟩ := poll
      obtain ⟨⟨after, before⟩, soonRest⟩ := List.forall_mem_cons.mp soon
      have elapsed :
          BitVec.ofNat 32 t - BitVec.ofNat 32 start < timeout ↔
            t < start + timeout.toNat := by
        rw [BitVec.lt_def, BitVec.toNat_sub, BitVec.toNat_ofNat,
          BitVec.toNat_ofNat]
        change start ≤ t at after
        change t < start + 2 ^ 32 at before
        omega
      rw [List.map_cons, timedLoop, List.find?_cons]
      by_cases isChar : 0 ≤ c
      · simp only [ge_iff_le, isChar, if_true, decide_true, Bool.true_or,
          Option.map_some]
      · by_cases waits : t < start + timeout.toNat
        · have goesOn : ¬ start + timeout.toNat ≤ t :=
            Nat.not_le_of_lt waits
          simp only [ge_iff_le, isChar, if_false, if_pos (elapsed.mpr waits),
            goesOn, decide_false, Bool.or_self]
          exact inductionHypothesis soonRest
        · have isOver : start + timeout.toNat ≤ t := Nat.le_of_not_lt waits
          simp only [ge_iff_le, isChar, if_false,
            if_neg (fun less => waits (elapsed.mp less)), isOver,
            decide_true, Bool.or_true, Option.map_some]

/-- The milliseconds wrap while the loop waits a second for nothing. -/
theorem timedLoop_exact_wrapping :
    timedLoop (BitVec.ofNat 32 4294967000) 1000
        [(-1, BitVec.ofNat 32 4294967200), (-1, BitVec.ofNat 32 4294968100)] =
      some (-1) :=
  @timedLoop_exact 4294967000 1000 [(-1, 4294967200), (-1, 4294968100)]
    (by decide)

end Timer0

end KeyboardEmulator
