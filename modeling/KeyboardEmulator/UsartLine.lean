import KeyboardEmulator.SoftwareSerialWire

namespace KeyboardEmulator

open SerialFrame (Frame Paced Spaced)

/-!
# The line of the USART

The transmitter derives its bits from `UBRR0` and `U2X0`.  `HardwareSerial::begin`
sets both so that they come close enough to the speed for `SoftwareSerial` on the
other end, although a division rounds on either side.
-/

namespace Usart

/-- The twelve bits of the baud-rate registers. -/
def ubrr (io : IoFile) : Nat :=
  (io .ubrr0h).toNat % 16 * 256 + (io .ubrr0l).toNat

/-- Cycles that the transmitter takes for a bit. -/
def bitCycles (io : IoFile) : Nat :=
  (if io.bit .ucsr0a u2x0 then 8 else 16) * (ubrr io + 1)

/-- A byte on the line in the format `SERIAL_8N1`. -/
def frame (bit t : Nat) (b : BitVec 8) : Frame Bool 8 where
  edge k := t + k * bit
  data := SoftwareSerial.samplesOf b

/-- Bytes on the line, each some cycles after the stop bit of the last. -/
def frames (bit : Nat) : Nat → List (Nat × BitVec 8) → List (Frame Bool 8)
  | _, [] => []
  | t, (gap, b) :: rest =>
      frame bit (t + gap) b :: frames bit (t + gap + 10 * bit) rest

theorem frame_paced (bit t : Nat) (b : BitVec 8) :
    Paced (frame bit t b).edge 9 bit bit := by
  refine ⟨fun k _ => ?_, fun k _ => ?_⟩ <;>
    simp only [frame, Nat.succ_mul] <;>
    omega

theorem frames_paced
    (bit t : Nat)
    (text : List (Nat × BitVec 8)) :
    ∀ sent ∈ frames bit t text, Paced sent.edge 9 bit bit := by
  induction text generalizing t with
  | nil =>
      exact fun sent member => absurd member List.not_mem_nil
  | cons entry rest inductionHypothesis =>
      rw [frames]
      exact List.forall_mem_cons.mpr
        ⟨frame_paced _ _ _, inductionHypothesis _⟩

theorem le_frames_head
    (bit t : Nat)
    (text : List (Nat × BitVec 8)) :
    ∀ sent ∈ (frames bit t text).head?, t ≤ sent.edge 0 := by
  intro sent isHead
  cases text with
  | nil =>
      contradiction
  | cons entry rest =>
      obtain rfl := Option.some.inj isHead
      simp [frame]

theorem frames_spaced
    (bit t : Nat)
    (text : List (Nat × BitVec 8)) :
    Spaced bit (frames bit t text) := by
  induction text generalizing t with
  | nil =>
      exact List.isChain_nil
  | cons entry rest inductionHypothesis =>
      refine List.isChain_cons.mpr
        ⟨fun other isHead => ?_, inductionHypothesis _⟩
      have later := le_frames_head bit (t + entry.1 + 10 * bit) rest other isHead
      simp only [frame]
      omega

theorem frames_received
    {object : SoftwareSerial}
    (normalLogic : object.inverseLogic = false)
    (bit t : Nat)
    (text : List (Nat × BitVec 8)) :
    (frames bit t text).map (fun sent => object.received sent.data) =
      text.map Prod.snd := by
  induction text generalizing t with
  | nil =>
      rfl
  | cons entry rest inductionHypothesis =>
      have here :
          object.received (SoftwareSerial.samplesOf entry.2) = entry.2 := by
        rw [SoftwareSerial.received, normalLogic, if_neg Bool.false_ne_true,
          SoftwareSerial.sampleByte_samplesOf]
      rw [frames, List.map_cons, inductionHypothesis, frame, here,
        List.map_cons]

end Usart

namespace HardwareSerial

/-- What `begin` leaves in the registers that make the bits. -/
theorem bitCycles_beginCode
    (io : IoFile)
    {baud : Nat}
    (fits : baudSetting baud < 4096)
    (config : BitVec 8) :
    Usart.bitCycles (io.execute (beginCode baud config)) =
      (if normalSpeed baud then 16 else 8) * (baudSetting baud + 1) := by
  have twelve :
      (BitVec.ofNat 8 (baudSetting baud >>> 8)).toNat % 16 * 256 +
          (BitVec.ofNat 8 (baudSetting baud)).toNat =
        baudSetting baud := by
    simp only [BitVec.toNat_ofNat, Nat.shiftRight_eq_div_pow]
    omega
  have registers :
      Usart.ubrr (io.execute (beginCode baud config)) =
          (BitVec.ofNat 8 (baudSetting baud >>> 8)).toNat % 16 * 256 +
            (BitVec.ofNat 8 (baudSetting baud)).toNat ∧
        (io.execute (beginCode baud config)).bit .ucsr0a u2x0 =
          !normalSpeed baud := by
    rw [beginCode]
    cases normalSpeed baud <;>
      simp [IoFile.execute, sbi, cbi, orMask, andNotMask, Usart.ubrr,
        IoFile.bit, IoFile.store, storedValue, ucsr0aStatus, bv, u2x0,
        mpcm0, txc0]
  rw [Usart.bitCycles, registers.1, registers.2, twelve]
  cases normalSpeed baud <;> rfl

/-- The subtraction in the divisor stays above zero up to the clock. -/
theorem divisor_eq
    {clock baud : Nat}
    (positive : 0 < baud)
    (atMost : baud ≤ clock)
    (wide : clock < 4294967296) :
    divisor clock baud = (clock / baud - 1) / 2 % 65536 := by
  have one : 1 ≤ clock / baud := (Nat.one_le_div_iff positive).mpr atMost
  have most : clock / baud ≤ clock := Nat.div_le_self _ _
  have noWrap :
      (clock / baud + 4294967295) % 4294967296 = clock / baud - 1 := by
    omega
  rw [divisor, noWrap]

/--
Above a quarter of the clock the subtractions wrap around, and `begin` falls
back to the slowest of all speeds.
-/
theorem baudSetting_wraps
    {baud : Nat}
    (tooFast : fCpu / 4 < baud) :
    normalSpeed baud = true ∧ baudSetting baud = 0xffff := by
  have wraps : ∀ {clock}, clock < baud → divisor clock baud = 0xffff := by
    intro clock less
    rw [divisor, Nat.div_eq_of_lt less]
  have normal : normalSpeed baud = true := by
    rw [normalSpeed, doubleSpeedSetting, wraps tooFast]
    exact Bool.or_true _
  refine ⟨normal, ?_⟩
  rw [baudSetting, if_pos normal]
  exact wraps (Nat.lt_of_le_of_lt (by decide) tooFast)

/-- From 245 baud on the setting fits into the registers. -/
theorem baudSetting_fits
    {baud : Nat}
    (slowest : 245 ≤ baud)
    (fastest : baud ≤ fCpu / 8) :
    baudSetting baud < 4096 := by
  have most : fCpu / 8 / baud ≤ 16000000 / 8 / 245 :=
    Nat.div_le_div_left slowest (by decide)
  rw [baudSetting]
  split
  next =>
    rw [divisor_eq (by omega) fastest (by decide)]
    omega
  next double =>
    simp only [normalSpeed, Bool.or_eq_true, not_or, decide_eq_true_eq]
      at double
    omega

/-- The quotient, made even by rounding it up, times its divisor. -/
theorem roundedQuotient
    {cycles speed : Nat}
    (positive : 0 < speed)
    (fewer : speed ≤ cycles) :
    cycles ≤ 2 * ((cycles / speed - 1) / 2 + 1) * speed + speed ∧
      2 * ((cycles / speed - 1) / 2 + 1) * speed ≤ cycles + speed := by
  have some : 1 ≤ cycles / speed := (Nat.one_le_div_iff positive).mpr fewer
  have down : cycles / speed * speed ≤ cycles :=
    Nat.div_mul_le_self cycles speed
  have up : cycles < (cycles / speed + 1) * speed :=
    (Nat.div_lt_iff_lt_mul positive).mp (Nat.lt_succ_self _)
  generalize cycles / speed = quotient at some down up
  have between :
      quotient ≤ 2 * ((quotient - 1) / 2 + 1) ∧
        2 * ((quotient - 1) / 2 + 1) ≤ quotient + 1 := by
    omega
  generalize 2 * ((quotient - 1) / 2 + 1) = rounded at between
  have least : quotient * speed ≤ rounded * speed :=
    Nat.mul_le_mul_right speed between.1
  have most : rounded * speed ≤ (quotient + 1) * speed :=
    Nat.mul_le_mul_right speed between.2
  rw [Nat.succ_mul] at up most
  omega

/-- Bits come near the speed if the half of a bit does. -/
theorem nearSpeed_of_rounded
    {speed setting : Nat}
    (half : Nat)
    (least : 39 * fCpu ≤ 40 * (half * (2 * (setting + 1) * speed)))
    (most : 50 * (half * (2 * (setting + 1) * speed)) ≤ 51 * fCpu) :
    SoftwareSerial.NearSpeed speed
      (2 * half * (setting + 1)) (2 * half * (setting + 1)) := by
  have product :
      2 * half * (setting + 1) * speed =
        half * (2 * (setting + 1) * speed) := by
    rw [Nat.mul_comm 2 half, Nat.mul_assoc half, Nat.mul_assoc half]
  exact ⟨by rwa [product], by rwa [product]⟩

/-- The bits come near the speed; 57600 baud are the worst case. -/
theorem nearSpeed_baudSetting
    {speed : Nat}
    (slowest : 245 ≤ speed)
    (fastest : speed ≤ 57600) :
    SoftwareSerial.NearSpeed speed
      ((if normalSpeed speed then 16 else 8) * (baudSetting speed + 1))
      ((if normalSpeed speed then 16 else 8) * (baudSetting speed + 1)) := by
  by_cases exception : speed = 57600
  · subst exception
    exact ⟨by decide, by decide⟩
  · have positive : 0 < speed := by omega
    have wide : fCpu / 4 / speed ≤ 16000000 / 4 / 245 :=
      Nat.div_le_div_left slowest (by decide)
    have narrow : fCpu / 8 / speed ≤ 16000000 / 8 / 245 :=
      Nat.div_le_div_left slowest (by decide)
    have clock : fCpu = 16000000 := rfl
    rw [baudSetting]
    split
    next normal =>
      have slow : speed ≤ 488 := by
        have product := Nat.div_mul_le_self (fCpu / 4) speed
        have double : 4095 < doubleSpeedSetting speed := by
          simpa [normalSpeed, exception] using normal
        rw [doubleSpeedSetting, divisor_eq positive (by omega) (by omega),
          Nat.mod_eq_of_lt (by omega)] at double
        have many : 8193 * speed ≤ fCpu / 4 / speed * speed :=
          Nat.mul_le_mul_right speed (by omega)
        omega
      obtain ⟨least, most⟩ :=
        @roundedQuotient (fCpu / 8) speed positive (by omega)
      rw [divisor_eq positive (by omega) (by omega),
        Nat.mod_eq_of_lt (by omega)]
      exact nearSpeed_of_rounded 8 (by omega) (by omega)
    next double =>
      obtain ⟨least, most⟩ :=
        @roundedQuotient (fCpu / 4) speed positive (by omega)
      rw [doubleSpeedSetting, divisor_eq positive (by omega) (by omega),
        Nat.mod_eq_of_lt (by omega)]
      exact nearSpeed_of_rounded 4 (by omega) (by omega)

/--
A board that calls `Serial.begin` and another whose object calls `begin` with the
same speed: the object makes the bytes that the USART of the first sends, in
order, and all of them once it had the time to, as long as no edge waits for too
long.
-/
theorem softwareSerial_hears
    {object : SoftwareSerial}
    (normalLogic : object.inverseLogic = false)
    {gccVersion speed : Nat}
    (slowest : 245 ≤ speed)
    (fastest : speed ≤ 57600)
    (io : IoFile)
    {late check : Nat → Nat}
    (inTime :
      ∀ edge, 10 * (late edge + 28) ≤ 11 * SoftwareSerial.bitDelay speed)
    (checked :
      ∀ edge,
        check edge ≤
          late edge + (SoftwareSerial.recvCycles gccVersion).toCentering)
    (t : Nat)
    (text : List (Nat × BitVec 8))
    (watched : Nat) :
    let sent :=
      Usart.frames
        (Usart.bitCycles (io.execute (beginCode speed serial8N1)))
        (t + 1) text
    let made :=
      (object.tuneDelays gccVersion speed).bytesHeard
        (SoftwareSerial.recvCycles gccVersion) late check
        (SerialFrame.levelAt true (sent.flatMap (Frame.writes true false)))
        watched t
    made <+: text.map Prod.snd ∧
      ((∀ frame ∈ sent, frame.edge 0 ≤ t + watched) →
        made = text.map Prod.snd) := by
  intro sent made
  have near := nearSpeed_baudSetting slowest fastest
  have fits : baudSetting speed < 4096 :=
    baudSetting_fits slowest (Nat.le_trans fastest (by decide))
  rw [← bitCycles_beginCode io fits serial8N1] at near
  have heard :=
    @SoftwareSerial.bytesHeard_frames object gccVersion speed _ _ late check
      (fun edge =>
        SoftwareSerial.tolerates_of_nearSpeed (by omega) fastest near
          (inTime edge) (checked edge))
      t _ (Usart.le_frames_head _ _ text) (Usart.frames_paced _ (t + 1) text)
      (Usart.frames_spaced _ (t + 1) text) watched
  rw [normalLogic, Usart.frames_received normalLogic] at heard
  exact heard

/-- Two bytes at 57600 baud, the second behind a short pause. -/
def twoSent : List (Frame Bool 8) :=
  Usart.frames
    (Usart.bitCycles
      (IoFile.execute (fun _ => 0) (beginCode 57600 serial8N1)))
    1 [(0, 0x48), (20, 0x69)]

theorem softwareSerial_hears_twoSent :
    ((SoftwareSerial.onPin (Fin.last 19)).tuneDelays 40902 57600).bytesHeard
        (SoftwareSerial.recvCycles 40902) (fun _ => 40) (fun _ => 100)
        (SerialFrame.levelAt true (twoSent.flatMap (Frame.writes true false)))
        20000 0 =
      [0x48, 0x69] :=
  (@softwareSerial_hears (SoftwareSerial.onPin (Fin.last 19)) rfl 40902 57600
    (by decide) (by decide) (fun _ => 0) (fun _ => 40) (fun _ => 100)
    (fun _ => by decide) (fun _ => by decide) 0 [(0, 0x48), (20, 0x69)]
    20000).2 (by decide +kernel)

end HardwareSerial

end KeyboardEmulator
