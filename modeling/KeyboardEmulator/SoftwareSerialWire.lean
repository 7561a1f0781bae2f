import KeyboardEmulator.ListeningPorts
import KeyboardEmulator.SerialFrame

namespace KeyboardEmulator

open SerialFrame (Carries Fits Frame Paced Sampling Spaced timed timed_congr)

/-!
# `SoftwareSerial` on the wire

Times are in cycles of the board.  The delays are those that `begin` computes,
and the cycles of the instructions around them are those its comments count.
Both sides follow the rate closely enough: what one object writes, an object
that listens at the same speed receives, as long as the change of the line is
not kept waiting for too long.
-/

namespace SoftwareSerial

/--
`tunedDelay(delay)`: four cycles for each round of `_delay_loop_2`, which counts
zero as 65536.
-/
def tunedDelay (delay : Nat) : Nat :=
  4 * (if delay = 0 then 65536 else delay)

theorem tunedDelay_subtractCap (num sub : Nat) :
    tunedDelay (subtractCap num sub) = 4 * max (num - sub) 1 := by
  rw [tunedDelay, subtractCap]
  split
  next more =>
    rw [if_neg (Nat.sub_ne_zero_of_lt more),
      Nat.max_eq_left (Nat.sub_pos_of_lt more)]
  next fewer =>
    rw [if_neg Nat.one_ne_zero,
      Nat.sub_eq_zero_of_le (Nat.le_of_not_lt fewer)]
    rfl

theorem subtractCap_ne_zero (num sub : Nat) :
    subtractCap num sub ≠ 0 := by
  rw [subtractCap]
  split
  next more =>
    exact Nat.sub_ne_zero_of_lt more
  next =>
    exact Nat.one_ne_zero

theorem txDelay_tuneDelays
    (object : SoftwareSerial)
    (gccVersion speed : Nat) :
    (object.tuneDelays gccVersion speed).txDelay =
      subtractCap (bitDelay speed) 3 := by
  rw [tuneDelays, beginDelays]
  split <;> rfl

theorem inverseLogic_tuneDelays
    (object : SoftwareSerial)
    (gccVersion speed : Nat) :
    (object.tuneDelays gccVersion speed).inverseLogic =
      object.inverseLogic := by
  rw [tuneDelays, beginDelays]
  split <;> rfl

/-! ## `write` -/

/-- Cycles of `write` around its delays. -/
structure WriteCycles where
  /-- from start bit to first bit -/
  toFirst : Nat
  /-- between bits -/
  between : Nat
  /-- from last bit to stop bit -/
  toStop : Nat

def writeCycles (gccVersion : Nat) : WriteCycles :=
  if gccVersion > 40800 then ⟨12, 15, 12⟩ else ⟨13, 16, 14⟩

/-- What a call of `write` returns, its writes to the pin, and its end. -/
structure Written where
  size : Nat
  pin : List (Nat × Bool)
  returned : Nat

/-- Write each of the bits: `i` of them are left of `b`. -/
def writeBits (bitTime : Nat) : Nat → Nat → BitVec 8 → List (Nat × Bool)
  | 0, _, _ => []
  | i + 1, t, b =>
      (t, b.getLsbD 0) :: writeBits bitTime i (t + bitTime) (b >>> 1)

/-- `write(b)`, which writes its start bit at time `t`. -/
def write
    (object : SoftwareSerial)
    (cycles : WriteCycles)
    (t : Nat)
    (b : BitVec 8) : Written :=
  if object.txDelay = 0 then
    ⟨0, [], t⟩
  else
    let inv := object.inverseLogic
    let b := if inv then ~~~b else b
    let delay := tunedDelay object.txDelay
    let first := t + delay + cycles.toFirst
    let last := first + 7 * (delay + cycles.between)
    let stop := last + delay + cycles.toStop
    { size := 1
      pin :=
        (t, inv) :: writeBits (delay + cycles.between) 8 first b ++
          [(stop, !inv)]
      returned := stop + delay }

/-- One `write` after the other, each some cycles after the last returned. -/
def writeAll
    (object : SoftwareSerial)
    (cycles : WriteCycles) : Nat → List (Nat × BitVec 8) → List (Nat × Bool)
  | _, [] => []
  | t, (gap, b) :: rest =>
      let written := object.write cycles (t + gap) b
      written.pin ++ writeAll object cycles written.returned rest

/-- The frame of a byte that is written at time `t`. -/
def writeFrame
    (object : SoftwareSerial)
    (cycles : WriteCycles)
    (t : Nat)
    (b : BitVec 8) : Frame Bool 8 :=
  let delay := tunedDelay object.txDelay
  let first := t + delay + cycles.toFirst
  let bitTime := delay + cycles.between
  { edge := fun k =>
      match k with
      | 0 => t
      | k + 1 =>
          if k < 8 then first + k * bitTime
          else first + 7 * bitTime + delay + cycles.toStop
    data := samplesOf (if object.inverseLogic then ~~~b else b) }

/-- The frames of one `write` after the other. -/
def writeFrames
    (object : SoftwareSerial)
    (cycles : WriteCycles) : Nat → List (Nat × BitVec 8) → List (Frame Bool 8)
  | _, [] => []
  | t, (gap, b) :: rest =>
      object.writeFrame cycles (t + gap) b ::
        writeFrames object cycles
          (object.write cycles (t + gap) b).returned rest

/-- The loop writes the bits that are left, from the lowest. -/
theorem writeBits_eq
    (bitTime n t : Nat)
    (b : BitVec 8) :
    writeBits bitTime n t b =
      timed (fun k => t + k * bitTime)
        (List.ofFn (fun k : Fin n => b.getLsbD k.val)) := by
  induction n generalizing t b with
  | zero =>
      rfl
  | succ n inductionHypothesis =>
      have bits :
          List.ofFn (fun k : Fin n => (b >>> 1).getLsbD k.val) =
            List.ofFn (fun k : Fin n => b.getLsbD (k.val + 1)) := by
        simp [Nat.add_comm]
      have edges :
          (fun k => t + bitTime + k * bitTime) =
            fun k => t + (k + 1) * bitTime := by
        funext k
        rw [Nat.succ_mul, Nat.add_assoc, Nat.add_comm bitTime]
      rw [writeBits, inductionHypothesis, bits, edges, List.ofFn_succ, timed]
      simp

/-- `write` puts a frame on the line. -/
theorem write_pin
    {object : SoftwareSerial}
    (began : object.txDelay ≠ 0)
    (cycles : WriteCycles)
    (t : Nat)
    (b : BitVec 8) :
    (object.write cycles t b).pin =
      (object.writeFrame cycles t b).writes
        (!object.inverseLogic) object.inverseLogic := by
  have inData :
      ∀ k < (object.writeFrame cycles t b).data.toList.length, k < 8 := by
    simp
  rw [write, if_neg began, Frame.writes_eq, timed]
  refine congrArg (List.cons _) (congrArg (· ++ [_]) ?_)
  rw [writeBits_eq]
  have levels :
      (object.writeFrame cycles t b).data.toList =
        List.ofFn
          (fun k : Fin 8 =>
            (if object.inverseLogic then ~~~b else b).getLsbD k.val) :=
    Vector.toList_ofFn
  rw [← levels]
  refine timed_congr (fun k within => ?_)
  rw [writeFrame]
  exact (if_pos (inData k within)).symm

/-- Its levels last as long as the instructions between them. -/
theorem writeFrame_paced
    {object : SoftwareSerial}
    {cycles : WriteCycles}
    {lo hi : Nat}
    (least :
      lo ≤ tunedDelay object.txDelay +
        min cycles.toFirst (min cycles.between cycles.toStop))
    (most :
      tunedDelay object.txDelay +
        max cycles.toFirst (max cycles.between cycles.toStop) ≤ hi)
    (t : Nat)
    (b : BitVec 8) :
    Paced (object.writeFrame cycles t b).edge 9 lo hi := by
  have step :
      ∀ k < 9,
        (object.writeFrame cycles t b).edge k + lo ≤
            (object.writeFrame cycles t b).edge (k + 1) ∧
          (object.writeFrame cycles t b).edge (k + 1) ≤
            (object.writeFrame cycles t b).edge k + hi := by
    intro k within
    cases k with
    | zero =>
        simp only [writeFrame, Nat.reduceLT, if_true, Nat.zero_mul]
        omega
    | succ k =>
        have inData : k < 8 := by omega
        simp only [writeFrame, if_pos inData]
        split
        · rw [Nat.succ_mul]
          omega
        · have last : k = 7 := by omega
          subst last
          omega
  exact ⟨fun k within => (step k within).1, fun k within => (step k within).2⟩

/-! ## `recv` -/

/-- Cycles of a reception around the delays of `recv`. -/
structure RecvCycles where
  /-- from the start bit to the first delay: the interrupt, and the code before -/
  toCentering : Nat
  /-- from the delay until the pin value is read -/
  toRead : Nat
  /-- in each loop iteration -/
  loop : Nat
  /-- from the last bit read to the start of the stop-bit delay -/
  toStopbit : Nat
  /-- from that delay until the interrupt mask is enabled again -/
  toMask : Nat

/-- Where the comments say "3 or 4", the fourth counts as waiting. -/
def recvCycles (gccVersion : Nat) : RecvCycles :=
  if gccVersion > 40800 then
    ⟨3 + 4 + 75, 17, 23, 37, 11⟩
  else
    ⟨3 + 4 + 97, 29, 11, 44, 17⟩

/--
When `recv` looks at the pin after an edge that the interrupt takes up `late`
cycles too late; `check` is its first look, before the first delay.
-/
def recvSampling
    (object : SoftwareSerial)
    (cycles : RecvCycles)
    (late check : Nat → Nat)
    (edge : Nat) : Sampling :=
  let first :=
    late edge + cycles.toCentering + tunedDelay object.rxDelayCentering +
      tunedDelay object.rxDelayIntrabit + cycles.toRead
  let step := tunedDelay object.rxDelayIntrabit + cycles.loop
  { check := check edge
    first := first
    step := step
    armed :=
      first + 7 * step + cycles.toStopbit +
        tunedDelay object.rxDelayStopbit + cycles.toMask }

/--
The bytes `recv` makes of a line, while its mask bit is set at time `t` and for
some cycles from then on.  While it samples the mask bit is clear.
-/
def bytesHeard
    (object : SoftwareSerial)
    (cycles : RecvCycles)
    (late check : Nat → Nat)
    (line : Nat → Bool)
    (watched t : Nat) : List (BitVec 8) :=
  (SerialFrame.heard 8 object.startBit
    (object.recvSampling cycles late check) line watched t).map
      object.received

/-- The waits of an interrupt that leave its reception in time. -/
def InTime (gccVersion bitDelay late : Nat) : Prop :=
  late + (if gccVersion > 40800 then 104 else 150) < 4 * bitDelay ∧
    late + 26 < 2 * bitDelay

instance (gccVersion bitDelay late : Nat) :
    Decidable (InTime gccVersion bitDelay late) :=
  inferInstanceAs (Decidable (_ ∧ _))

/-- 115200 baud leave the newer code 31 cycles, the older code none. -/
example :
    InTime 40802 (bitDelay 115200) 31 ∧
      ¬ InTime 40302 (bitDelay 115200) 0 ∧
      InTime 40302 (bitDelay 57600) 111 := by
  decide

/--
A bit lasts the computed delay, or up to four cycles longer since the division
rounds down.  In time, each look of `recv` falls into its level, and the mask is
enabled again during the stop bit.
-/
theorem tolerates_of_inTime
    {object : SoftwareSerial}
    {gccVersion speed : Nat}
    (fits : bitDelay speed * 3 < 65536)
    {late check : Nat → Nat}
    {edge : Nat}
    (inTime : InTime gccVersion (bitDelay speed) (late edge))
    (checked :
      check edge ≤ late edge + (recvCycles gccVersion).toCentering) :
    ((object.tuneDelays gccVersion speed).recvSampling
        (recvCycles gccVersion) late check edge).Tolerates
      7 (4 * bitDelay speed - 12) (4 * bitDelay speed)
      (4 * bitDelay speed + 4) := by
  obtain ⟨beforeLast, beforeFirst⟩ := inTime
  rw [tuneDelays_eq object gccVersion fits]
  by_cases newer : gccVersion > 40800
  · simp only [if_pos newer] at beforeLast
    constructor <;>
      simp only [recvSampling, recvCycles, beginDelays, if_pos newer,
        tunedDelay_subtractCap] at checked ⊢ <;>
      omega
  · simp only [if_neg newer] at beforeLast
    constructor <;>
      simp only [recvSampling, recvCycles, beginDelays, if_neg newer,
        tunedDelay_subtractCap] at checked ⊢ <;>
      omega

/-- From 184 baud on the products of `begin` fit into 16 bits. -/
theorem bitDelay_of_slowest
    {speed : Nat}
    (slowest : 184 ≤ speed) :
    bitDelay speed = fCpu / speed / 4 ∧ bitDelay speed * 3 < 65536 := by
  have most : fCpu / speed ≤ 16000000 / 184 :=
    Nat.div_le_div_left slowest (by decide)
  have delay : bitDelay speed = fCpu / speed / 4 :=
    Nat.mod_eq_of_lt (by omega)
  exact ⟨delay, by omega⟩

/-- A sender is at most 2.5 % faster and 2 % slower than the speed. -/
structure NearSpeed (speed lo hi : Nat) : Prop where
  least : 39 * fCpu ≤ 40 * (lo * speed)
  most : 50 * (hi * speed) ≤ 51 * fCpu

/-- The bounds in terms of the delay, which the division rounds down. -/
theorem NearSpeed.delay
    {speed lo hi : Nat}
    (positive : 0 < speed)
    (near : NearSpeed speed lo hi) :
    39 * (fCpu / speed) ≤ 40 * lo ∧ 50 * hi ≤ 51 * (fCpu / speed + 1) := by
  obtain ⟨least, most⟩ := near
  have down : fCpu / speed * speed ≤ fCpu := Nat.div_mul_le_self fCpu speed
  have up : fCpu < (fCpu / speed + 1) * speed :=
    (Nat.div_lt_iff_lt_mul positive).mp (Nat.lt_succ_self _)
  constructor
  · refine Nat.le_of_mul_le_mul_right ?_ positive
    calc 39 * (fCpu / speed) * speed
        = 39 * (fCpu / speed * speed) := Nat.mul_assoc ..
      _ ≤ 39 * fCpu := Nat.mul_le_mul_left 39 down
      _ ≤ 40 * (lo * speed) := least
      _ = 40 * lo * speed := (Nat.mul_assoc ..).symm
  · refine Nat.le_of_mul_le_mul_right ?_ positive
    calc 50 * hi * speed
        = 50 * (hi * speed) := Nat.mul_assoc ..
      _ ≤ 51 * fCpu := most
      _ ≤ 51 * ((fCpu / speed + 1) * speed) := Nat.mul_le_mul_left 51 up.le
      _ = 51 * (fCpu / speed + 1) * speed := (Nat.mul_assoc ..).symm

/-- Such a sender is heard as long as no edge waits for a quarter of a bit. -/
theorem tolerates_of_nearSpeed
    {object : SoftwareSerial}
    {gccVersion speed lo hi : Nat}
    (slowest : 184 ≤ speed)
    (fastest : speed ≤ 57600)
    (near : NearSpeed speed lo hi)
    {late check : Nat → Nat}
    {edge : Nat}
    (inTime : 10 * (late edge + 28) ≤ 11 * bitDelay speed)
    (checked :
      check edge ≤ late edge + (recvCycles gccVersion).toCentering) :
    ((object.tuneDelays gccVersion speed).recvSampling
        (recvCycles gccVersion) late check edge).Tolerates 7 lo lo hi := by
  obtain ⟨delay, fits⟩ := bitDelay_of_slowest slowest
  obtain ⟨least, most⟩ := near.delay (by omega)
  have short : 16000000 / 57600 ≤ fCpu / speed :=
    Nat.div_le_div_left fastest (by omega)
  rw [tuneDelays_eq object gccVersion fits]
  generalize fCpu / speed = cycles at delay least most short
  by_cases newer : gccVersion > 40800
  · constructor <;>
      simp only [recvSampling, recvCycles, beginDelays, if_pos newer,
        tunedDelay_subtractCap, delay] at inTime checked ⊢ <;>
      omega
  · constructor <;>
      simp only [recvSampling, recvCycles, beginDelays, if_neg newer,
        tunedDelay_subtractCap, delay] at inTime checked ⊢ <;>
      omega

/-! ## From one object to another -/

/-- The object makes the bytes of the frames that the line carries. -/
theorem bytesHeard_carried
    {object : SoftwareSerial}
    {gccVersion speed pause lo hi : Nat}
    {late check : Nat → Nat}
    (tolerates :
      ∀ edge,
        ((object.tuneDelays gccVersion speed).recvSampling
          (recvCycles gccVersion) late check edge).Tolerates 7 pause lo hi)
    {line : Nat → Bool}
    {t : Nat}
    {frames : List (Frame Bool 8)}
    (carries :
      Carries (!object.inverseLogic) object.inverseLogic line t frames)
    (paced : ∀ frame ∈ frames, Paced frame.edge 9 lo hi)
    (spaced : Spaced pause frames)
    (watched : Nat) :
    (object.tuneDelays gccVersion speed).bytesHeard
        (recvCycles gccVersion) late check line watched t <+:
      frames.map (fun frame => object.received frame.data) ∧
    ((∀ frame ∈ frames, frame.edge 0 ≤ t + watched) →
      (object.tuneDelays gccVersion speed).bytesHeard
          (recvCycles gccVersion) late check line watched t =
        frames.map (fun frame => object.received frame.data)) := by
  have received :
      (object.tuneDelays gccVersion speed).received = object.received := by
    funext samples
    rw [SoftwareSerial.received, SoftwareSerial.received,
      inverseLogic_tuneDelays]
  have isStart :
      (object.tuneDelays gccVersion speed).startBit object.inverseLogic =
        true := by
    rw [startBit, inverseLogic_tuneDelays]
    cases object.inverseLogic <;> rfl
  have differs : object.inverseLogic ≠ !object.inverseLogic := by
    cases object.inverseLogic <;> decide
  obtain ⟨heardPrefix, heardAll⟩ :=
    SerialFrame.heard_carried carries spaced differs isStart
      (fun frame member => (tolerates (frame.edge 0)).fits (paced frame member))
      watched
  have bytes :
      frames.map (fun frame => object.received frame.data) =
        (frames.map Frame.data).map object.received := by
    rw [List.map_map]
    rfl
  rw [bytesHeard, received, bytes]
  exact ⟨heardPrefix.map object.received,
    fun enough => congrArg (List.map object.received) (heardAll enough)⟩

/-- It makes the bytes of frames that are written to the line. -/
theorem bytesHeard_frames
    {object : SoftwareSerial}
    {gccVersion speed lo hi : Nat}
    {late check : Nat → Nat}
    (tolerates :
      ∀ edge,
        ((object.tuneDelays gccVersion speed).recvSampling
          (recvCycles gccVersion) late check edge).Tolerates 7 lo lo hi)
    {t : Nat}
    {frames : List (Frame Bool 8)}
    (before : ∀ frame ∈ frames.head?, t < frame.edge 0)
    (paced : ∀ frame ∈ frames, Paced frame.edge 9 lo hi)
    (spaced : Spaced lo frames)
    (watched : Nat) :
    let line :=
      SerialFrame.levelAt (!object.inverseLogic)
        (frames.flatMap
          (Frame.writes (!object.inverseLogic) object.inverseLogic))
    (object.tuneDelays gccVersion speed).bytesHeard
        (recvCycles gccVersion) late check line watched t <+:
      frames.map (fun frame => object.received frame.data) ∧
    ((∀ frame ∈ frames, frame.edge 0 ≤ t + watched) →
      (object.tuneDelays gccVersion speed).bytesHeard
          (recvCycles gccVersion) late check line watched t =
        frames.map (fun frame => object.received frame.data)) := by
  intro line
  have somePause : 0 < lo :=
    Nat.zero_lt_of_lt (tolerates t).check
  have carries :
      Carries (!object.inverseLogic) object.inverseLogic line t frames :=
    SerialFrame.carries_writes spaced somePause paced before
      (fun u _ => SerialFrame.levelAt_of_later _
        (fun write member => absurd member List.not_mem_nil))
  exact bytesHeard_carried tolerates carries paced spaced watched

/--
Whatever drives the line near the speed that the object began with, bit by bit
and with stop bits of a bit's length: `recv` makes the bytes of the frames, in
order, and all of them once it had the time to, as long as no edge waits for too
long.
-/
theorem recv_hears
    {object : SoftwareSerial}
    {gccVersion speed lo hi : Nat}
    (slowest : 184 ≤ speed)
    (fastest : speed ≤ 57600)
    (near : NearSpeed speed lo hi)
    {late check : Nat → Nat}
    (inTime : ∀ edge, 10 * (late edge + 28) ≤ 11 * bitDelay speed)
    (checked :
      ∀ edge, check edge ≤ late edge + (recvCycles gccVersion).toCentering)
    {t : Nat}
    {frames : List (Frame Bool 8)}
    (before : ∀ frame ∈ frames.head?, t < frame.edge 0)
    (paced : ∀ frame ∈ frames, Paced frame.edge 9 lo hi)
    (spaced : Spaced lo frames)
    (watched : Nat) :
    let line :=
      SerialFrame.levelAt (!object.inverseLogic)
        (frames.flatMap
          (Frame.writes (!object.inverseLogic) object.inverseLogic))
    (object.tuneDelays gccVersion speed).bytesHeard
        (recvCycles gccVersion) late check line watched t <+:
      frames.map (fun frame => object.received frame.data) ∧
    ((∀ frame ∈ frames, frame.edge 0 ≤ t + watched) →
      (object.tuneDelays gccVersion speed).bytesHeard
          (recvCycles gccVersion) late check line watched t =
        frames.map (fun frame => object.received frame.data)) := by
  intro line
  exact bytesHeard_frames
    (fun edge =>
      tolerates_of_nearSpeed slowest fastest near (inTime edge) (checked edge))
    before paced spaced watched

/-- A frame that keeps to 9600 baud, rounded to cycles. -/
def exactFrame (b : BitVec 8) : Frame Bool 8 where
  edge k := 100 + 16000000 * k / 9600
  data := samplesOf b

theorem exactFrame_paced (b : BitVec 8) :
    Paced (exactFrame b).edge 9 1664 1668 := by
  refine ⟨fun k _ => ?_, fun k _ => ?_⟩ <;>
    simp only [exactFrame] <;>
    omega

theorem recv_hears_exactFrame :
    ((onPin (Fin.last 19)).tuneDelays 40902 9600).bytesHeard (recvCycles 40902)
        (fun _ => 60) (fun _ => 100)
        (SerialFrame.levelAt true
          ([exactFrame 0x48].flatMap (Frame.writes true false))) 30000 0 =
      [exactFrame 0x48].map
        (fun frame => (onPin (Fin.last 19)).received frame.data) :=
  (@recv_hears (onPin (Fin.last 19)) 40902 9600 1664 1668 (by decide)
    (by decide) ⟨by decide, by decide⟩
    (fun _ => 60) (fun _ => 100) (fun _ => by decide) (fun _ => by decide)
    0 [exactFrame 0x48] (by decide)
    (fun frame member => by
      rw [List.mem_singleton.mp member]
      exact exactFrame_paced 0x48)
    (List.isChain_singleton _) 30000).2 (by decide)

/-- A written byte is received as it was. -/
theorem received_writeFrame
    {writer reader : SoftwareSerial}
    (sameLogic : writer.inverseLogic = reader.inverseLogic)
    (cycles : WriteCycles)
    (t : Nat)
    (b : BitVec 8) :
    reader.received (writer.writeFrame cycles t b).data = b := by
  rw [SoftwareSerial.received, writeFrame, sampleByte_samplesOf, sameLogic]
  split
  · exact BitVec.not_not
  · rfl

/-- Writing one byte after the other puts one frame after the other. -/
theorem writeAll_eq
    {object : SoftwareSerial}
    (began : object.txDelay ≠ 0)
    (cycles : WriteCycles)
    (t : Nat)
    (text : List (Nat × BitVec 8)) :
    object.writeAll cycles t text =
      (object.writeFrames cycles t text).flatMap
        (Frame.writes (!object.inverseLogic) object.inverseLogic) := by
  induction text generalizing t with
  | nil =>
      rfl
  | cons entry rest inductionHypothesis =>
      obtain ⟨gap, b⟩ := entry
      rw [writeAll, writeFrames, List.flatMap_cons, write_pin began,
        inductionHypothesis]

/-- Each starts after the last returned. -/
theorem writeFrames_spaced
    {object : SoftwareSerial}
    (began : object.txDelay ≠ 0)
    (cycles : WriteCycles)
    (t : Nat)
    (text : List (Nat × BitVec 8)) :
    Spaced (tunedDelay object.txDelay)
        (object.writeFrames cycles t text) ∧
      ∀ frame ∈ (object.writeFrames cycles t text).head?,
        t ≤ frame.edge 0 := by
  induction text generalizing t with
  | nil =>
      exact ⟨List.isChain_nil, fun frame isHead => nomatch isHead⟩
  | cons entry rest inductionHypothesis =>
      obtain ⟨gap, b⟩ := entry
      have returned :
          (object.write cycles (t + gap) b).returned =
            (object.writeFrame cycles (t + gap) b).edge 9 +
              tunedDelay object.txDelay := by
        rw [write, if_neg began]
        rfl
      obtain ⟨spacedRest, afterReturn⟩ :=
        inductionHypothesis (object.write cycles (t + gap) b).returned
      rw [returned] at afterReturn
      rw [writeFrames]
      refine ⟨List.isChain_cons.mpr ⟨?_, spacedRest⟩, ?_⟩
      · intro other isHead
        rw [returned] at isHead
        exact afterReturn other isHead
      · intro frame isHead
        obtain rfl := Option.some.inj isHead
        exact Nat.le_add_right t gap

/-- What holds of the frame of each call holds of all of them. -/
theorem forall_writeFrames
    {object : SoftwareSerial}
    {cycles : WriteCycles}
    {holds : Frame Bool 8 → Prop}
    (each : ∀ t b, holds (object.writeFrame cycles t b))
    (t : Nat)
    (text : List (Nat × BitVec 8)) :
    ∀ frame ∈ object.writeFrames cycles t text, holds frame := by
  induction text generalizing t with
  | nil =>
      exact fun frame member => absurd member List.not_mem_nil
  | cons entry rest inductionHypothesis =>
      obtain ⟨gap, b⟩ := entry
      rw [writeFrames]
      exact List.forall_mem_cons.mpr ⟨each _ _, inductionHypothesis _⟩

theorem received_writeFrames
    {writer reader : SoftwareSerial}
    (sameLogic : writer.inverseLogic = reader.inverseLogic)
    (cycles : WriteCycles)
    (t : Nat)
    (text : List (Nat × BitVec 8)) :
    (writer.writeFrames cycles t text).map
        (fun frame => reader.received frame.data) =
      text.map Prod.snd := by
  induction text generalizing t with
  | nil =>
      rfl
  | cons entry rest inductionHypothesis =>
      obtain ⟨gap, b⟩ := entry
      rw [writeFrames, List.map_cons, received_writeFrame sameLogic,
        inductionHypothesis]
      rfl

/--
What one object writes, another of the same logic receives that began with the
same speed: at any time the bytes made so far are the first of those written,
and when the last pin write is made all of them will be.
-/
theorem bytesHeard_writeAll
    {writer reader : SoftwareSerial}
    (sameLogic : writer.inverseLogic = reader.inverseLogic)
    {writerGcc readerGcc speed : Nat}
    (fits : bitDelay speed * 3 < 65536)
    {late check : Nat → Nat}
    (inTime : ∀ edge, InTime readerGcc (bitDelay speed) (late edge))
    (checked :
      ∀ edge, check edge ≤ late edge + (recvCycles readerGcc).toCentering)
    (t : Nat)
    (text : List (Nat × BitVec 8))
    {writes : List (Nat × Bool)}
    (written :
      (writer.tuneDelays writerGcc speed).writeAll
        (writeCycles writerGcc) (t + 1) text = writes)
    (watched : Nat) :
    (reader.tuneDelays readerGcc speed).bytesHeard
        (recvCycles readerGcc) late check
        (SerialFrame.levelAt (!writer.inverseLogic) writes) watched t <+:
      text.map Prod.snd ∧
    ((∀ write ∈ writes, write.1 ≤ t + watched) →
      (reader.tuneDelays readerGcc speed).bytesHeard
          (recvCycles readerGcc) late check
          (SerialFrame.levelAt (!writer.inverseLogic) writes) watched t =
        text.map Prod.snd) := by
  have delays : 26 < bitDelay speed := by
    have soon := (inTime 0).1
    split at soon <;> omega
  have began : (writer.tuneDelays writerGcc speed).txDelay ≠ 0 := by
    rw [txDelay_tuneDelays]
    exact subtractCap_ne_zero _ _
  have txDelay :
      tunedDelay (writer.tuneDelays writerGcc speed).txDelay =
        4 * bitDelay speed - 12 := by
    rw [txDelay_tuneDelays, tunedDelay_subtractCap]
    omega
  obtain ⟨spaced, later⟩ :=
    writeFrames_spaced began (writeCycles writerGcc) (t + 1) text
  have paced :
      ∀ frame ∈
          (writer.tuneDelays writerGcc speed).writeFrames
            (writeCycles writerGcc) (t + 1) text,
        Paced frame.edge 9 (4 * bitDelay speed)
          (4 * bitDelay speed + 4) := by
    refine forall_writeFrames (fun s b => ?_) (t + 1) text
    apply writeFrame_paced <;>
      rw [txDelay, writeCycles] <;>
      split <;>
      simp only [] <;>
      omega
  rw [txDelay] at spaced
  rw [writeAll_eq began, inverseLogic_tuneDelays] at written
  have carries :
      Carries (!writer.inverseLogic) writer.inverseLogic
        (SerialFrame.levelAt (!writer.inverseLogic) writes) t
        ((writer.tuneDelays writerGcc speed).writeFrames
          (writeCycles writerGcc) (t + 1) text) := by
    rw [← written]
    exact SerialFrame.carries_writes spaced (by omega) paced later
      (fun u _ => SerialFrame.levelAt_of_later _
        (fun write member => absurd member List.not_mem_nil))
  rw [sameLogic] at carries written ⊢
  obtain ⟨heardPrefix, heardAll⟩ :=
    bytesHeard_carried
      (fun edge => tolerates_of_inTime fits (inTime edge) (checked edge))
      carries paced spaced watched
  have bytes :=
    received_writeFrames
      ((inverseLogic_tuneDelays writer writerGcc speed).trans sameLogic)
      (writeCycles writerGcc) (t + 1) text
  rw [bytes] at heardPrefix heardAll
  refine ⟨heardPrefix, fun enough => heardAll (fun frame member => ?_)⟩
  refine enough (frame.edge 0, reader.inverseLogic) ?_
  rw [← written]
  exact List.mem_flatMap.mpr ⟨frame, member, List.mem_cons_self⟩

end SoftwareSerial

end KeyboardEmulator
