import KeyboardEmulator.RelayInvariant
import KeyboardEmulator.SerialClient
import KeyboardEmulator.TransmitPipeline

namespace KeyboardEmulator

open BootKeyboard (Byte)
open RingBuffer (Ring next)

/-!
# What the client's position says about the transmitter

The transmit ring, UDR0, the shift register and TXC make up a transmitter
behind a queue.  For every position in a method, what the method has read is
related to them as they are now, with interrupts on as well as off.
-/

/-- The access leaves the transmitter and UDRIE alone, if UDRIE is clear. -/
def Access.sparesTransmitter : Access → Bool
  | .assign .ucsr0a value => !value.getLsbD txc0
  | .assign .ucsr0b _ => false
  | .assign _ _ => true
  | .modify .ucsr0b _ set => !set.getLsbD udrie0
  | _ => false

namespace At

/-- The byte of a running `write` that is not yet in the ring or in UDR0. -/
def uncommitted : At → List Byte
  | .write c position => if position.committed then [] else [c]
  | _ => []

/-- The head has moved and UDRIE is about to be set. -/
def enabling : At → Bool
  | .write _ position => position.enabling
  | _ => false

def mode : At → SregMode
  | .write _ position => position.mode
  | _ => .outside

/-- `available`, `peek`, `read`, `availableForWrite`, or the end of `end`. -/
def reading : At → Bool
  | .code _ _ _ | .flush _ _ | .write _ _ => false
  | _ => true

/-- `write` runs. -/
def writing : At → Bool
  | .write _ _ => true
  | _ => false

/-- `flush` runs, on its own or for `end`. -/
def flushing : At → Bool
  | .flush _ _ => true
  | _ => false

/-- `inWindow` by position. -/
def window : At → Bool
  | .write _ (.fastUcsra _) => true
  | _ => false

end At

namespace Usart

/-- Transmission complete. -/
def txc (u : Usart) : Bool :=
  u.m.io.bit .ucsr0a txc0

/-- What UDR0 holds and the transmitter has not taken. -/
def data (u : Usart) : Option Byte :=
  if u.m.udre then none else some u.udr

/-- The transmitter that ring and registers make up. -/
def pipe (u : Usart) : TransmitPipeline.State Byte where
  queued := u.m.tx.contents
  data := u.data
  shifting := u.shifting
  complete := u.txc && !u.location.window

/-- Nothing is on its way. -/
structure Quiet (u : Usart) : Prop where
  txEmpty : u.m.tx.Empty
  udre : u.m.udre = true
  shifting : u.shifting = none

theorem Quiet.drained
    {u : Usart}
    (quiet : u.Quiet) :
    TransmitPipeline.Drained u.pipe := by
  refine ⟨Ring.contents_eq_nil_iff.mpr quiet.txEmpty, ?_, quiet.shifting⟩
  simp only [pipe, data, quiet.udre, ↓reduceIte]

theorem Quiet.of_drained
    {u : Usart}
    (drained : TransmitPipeline.Drained u.pipe) :
    u.Quiet := by
  refine ⟨Ring.contents_eq_nil_iff.mp drained.queued, ?_, drained.shifting⟩
  have noData : u.data = none := drained.data
  rw [data] at noData
  split at noData
  next udre =>
    exact udre
  next =>
    contradiction

/-- What `flush()` has read still says about the transmitter. -/
def FlushOk (u : Usart) : FlushAt → Prop
  | .testWritten =>
      True
  | .testUdrie | .testSreg =>
      u.written = true
  | .testTxc =>
      u.written = true ∧ u.m.tx.Empty
  | .testUdrieOff =>
      u.written = true ∧ u.m.sregI = false
  | .testUdre =>
      u.written = true ∧ u.m.sregI = false ∧ ¬ u.m.tx.Empty
  | .ret =>
      u.Quiet

/-- What `write(c)` has read still says about the transmitter. -/
def WriteOk (u : Usart) (c : Byte) : WriteAt → Prop
  | .spinSreg i =>
      i = next u.m.tx.wr ∧ (u.m.sregI = false → u.m.tx.Full)
  | .spinUdre i =>
      i = next u.m.tx.wr ∧ u.m.sregI = false ∧ u.m.tx.Full
  | .fastUcsra _ =>
      u.m.tx.Empty ∧ (u.m.udre = true → u.shifting ≠ none)
  | position =>
      u.m.WriteOk c position

/-- The register code that runs spares the transmitter. -/
structure CodeOk
    (u : Usart)
    (todo : List Access)
    (loaded : Option Byte) : Prop where
  quiet : u.Quiet
  spares : ∀ access ∈ todo, access.sparesTransmitter = true
  loaded : ∀ value, loaded = some value → value.getLsbD udrie0 = false

/-- What the running method has read still says about the transmitter. -/
def TxAt (u : Usart) : At → Prop
  | .endTail | .endHead _ =>
      u.Quiet
  | .code _ todo loaded =>
      u.CodeOk todo loaded
  | .roomTail head =>
      head = u.m.tx.wr
  | .flush _ position =>
      u.FlushOk position
  | .write c position =>
      u.written = true ∧ u.WriteOk c position
  | _ =>
      True

/-- The interrupt flag is the client's, but off in the sections of `write`. -/
def FlagOk (u : Usart) : Prop :=
  match u.location.mode with
  | .outside => u.m.sregI = u.flag
  | .saved => u.m.sregI = u.flag ∧ u.m.oldSreg = u.flag
  | .off => u.m.sregI = false ∧ u.m.oldSreg = u.flag

/-- UDRIE follows the transmit ring, except between moving the head and it. -/
def UdrieFollows (u : Usart) : Prop :=
  u.location.enabling = false → (u.m.udrie = true ↔ ¬ u.m.tx.Empty)

/-- What holds of the transmit side in every state. -/
structure TxOk (u : Usart) : Prop where
  position : u.TxAt u.location
  flag : u.FlagOk
  udrie : u.UdrieFollows
  unwritten : u.written = false → u.Quiet

/-- A step of the system is a step of the transmitter. -/
structure Simulates (u : Usart) (result : Usart × List Event) : Prop where
  ok : result.1.TxOk
  written :
    result.1.written = true →
      result.1.location.uncommitted = [] →
        u.written = true
  pipe :
    ∃ label,
      TransmitPipeline.Step 63 u.pipe label result.1.pipe ∧
        u.location.uncommitted ++ result.2.filterMap Event.writing? =
          label.toList.filterMap TransmitPipeline.Label.accepted? ++
            result.1.location.uncommitted ∧
          result.2.filterMap Event.finished? =
            label.toList.filterMap TransmitPipeline.Label.finished?

/-! ## Steps that leave the transmitter alone -/

/-- Ring, registers and flags of the transmit side. -/
structure SameTx (before after : Usart) : Prop where
  tx : after.m.tx = before.m.tx
  udre : after.m.udre = before.m.udre
  udrie : after.m.udrie = before.m.udrie
  txc : after.txc = before.txc
  udr : after.udr = before.udr
  shifting : after.shifting = before.shifting

/-- The transmit side is not made of position, flags and receive ring. -/
theorem SameTx.moved
    (u : Usart)
    (sregI oldSreg written flag : Bool)
    (serialRx : Ring Byte 64)
    (pc : Pc)
    (location : At) :
    SameTx u
      { u with
        m := { u.m with
          sregI := sregI
          oldSreg := oldSreg
          serialRx := serialRx
          pc := pc }
        written := written
        flag := flag
        location := location } :=
  ⟨rfl, rfl, rfl, rfl, rfl, rfl⟩

variable {before after : Usart}

theorem SameTx.pipe
    (same : SameTx before after)
    (window : after.location.window = before.location.window) :
    after.pipe = before.pipe := by
  simp only [Usart.pipe, data, same.tx, same.udre, same.udr, same.shifting,
    same.txc, window]

theorem SameTx.quiet
    (same : SameTx before after)
    (quiet : before.Quiet) :
    after.Quiet :=
  ⟨same.tx ▸ quiet.txEmpty, same.udre.trans quiet.udre,
    same.shifting.trans quiet.shifting⟩

/-- The position moves on and the transmit side stays as it is. -/
theorem Simulates.moves
    {u after : Usart}
    {events : List Event}
    (ok : u.TxOk)
    (same : SameTx u after)
    (written : after.written = u.written)
    (flag : after.FlagOk)
    (target : after.TxAt after.location)
    (enabling :
      after.location.enabling = false → u.location.enabling = false)
    (window : after.location.window = u.location.window)
    (uncommitted : after.location.uncommitted = u.location.uncommitted)
    (noWriting : events.filterMap Event.writing? = [])
    (noFinished : events.filterMap Event.finished? = []) :
    Simulates u (after, events) := by
  refine ⟨⟨target, flag, fun notEnabling => ?_, fun unwritten => ?_⟩, ?_, none,
    ?_, ?_, noFinished⟩
  · rw [same.udrie, same.tx]
    exact ok.udrie (enabling notEnabling)
  · exact same.quiet (ok.unwritten (written ▸ unwritten))
  · intro isWritten _
    rw [← written]
    exact isWritten
  · rw [same.pipe window]
    exact .stutter
  · rw [noWriting, uncommitted, List.append_nil]
    rfl

/-- Outside the sections of `write` the flag is the client's. -/
theorem FlagOk.of_outside
    {u : Usart}
    (outside : u.location.mode = .outside)
    (flag : u.m.sregI = u.flag) :
    u.FlagOk := by
  rw [FlagOk, outside]
  exact flag

theorem FlagOk.outside
    {u : Usart}
    (ok : u.FlagOk)
    (outside : u.location.mode = .outside) :
    u.m.sregI = u.flag := by
  rw [FlagOk, outside] at ok
  exact ok

/-- A move between two positions outside `write`. -/
theorem Simulates.moves_outside
    {u after : Usart}
    {events : List Event}
    (ok : u.TxOk)
    (same : SameTx u after)
    (written : after.written = u.written)
    (flags : after.m.sregI = u.m.sregI ∧ after.flag = u.flag)
    (target : after.TxAt after.location)
    (here : ∀ c position, u.location ≠ .write c position)
    (there : ∀ c position, after.location ≠ .write c position)
    (noWriting : events.filterMap Event.writing? = [])
    (noFinished : events.filterMap Event.finished? = []) :
    Simulates u (after, events) := by
  have plain :
      ∀ location : At, (∀ c position, location ≠ .write c position) →
        location.mode = .outside ∧ location.enabling = false ∧
          location.window = false ∧ location.uncommitted = [] := by
    intro location notWrite
    cases location with
    | write c position => exact (notWrite c position rfl).elim
    | _ => exact ⟨rfl, rfl, rfl, rfl⟩
  obtain ⟨modeHere, enablingHere, windowHere, owedHere⟩ := plain _ here
  obtain ⟨modeThere, _, windowThere, owedThere⟩ := plain _ there
  have flag : after.FlagOk :=
    .of_outside modeThere
      (by rw [flags.1, flags.2, ok.flag.outside modeHere])
  exact .moves ok same written flag target (fun _ => enablingHere)
    (windowThere.trans windowHere.symm) (owedThere.trans owedHere.symm)
    noWriting noFinished

theorem spares_beginCode
    (baud : Nat)
    (config : BitVec 8) :
    ∀ access ∈ HardwareSerial.beginCode baud config,
      access.sparesTransmitter = true := by
  intro access member
  simp only [HardwareSerial.beginCode] at member
  split at member <;>
    simp only [List.cons_append, List.nil_append, List.mem_cons,
      List.not_mem_nil, or_false] at member <;>
    rcases member with rfl | rfl | rfl | rfl | rfl | rfl | rfl | rfl | rfl <;>
    rfl

theorem spares_endCode :
    ∀ access ∈ endCode, access.sparesTransmitter = true := by
  decide

/-- The client calls a method, and `begin` only with nothing on its way. -/
theorem Simulates.enter
    {u : Usart}
    (ok : u.TxOk)
    (outside : u.inMethod = false)
    (method : Method)
    (quiet : ∀ baud config, method = .begin baud config → u.Quiet) :
    Simulates u (u.enter method) := by
  have client := client_of_outside outside
  have notEnabling : u.location.enabling = false := by
    rw [client]
    rfl
  have flag := ok.flag.outside (by rw [client]; rfl)
  cases method with
  | begin baud config =>
      have isQuiet := quiet baud config rfl
      have target :
          CodeOk (u.enter (.begin baud config)).1
            (HardwareSerial.beginCode baud config) none :=
        ⟨⟨isQuiet.txEmpty, isQuiet.udre, isQuiet.shifting⟩,
          spares_beginCode baud config, fun _ held => by contradiction⟩
      refine ⟨⟨target, .of_outside rfl flag, fun _ => ok.udrie notEnabling,
        fun _ => target.quiet⟩, ?_, none, ?_, ?_, rfl⟩
      · intro isWritten _
        contradiction
      · have same : SameTx u (u.enter (.begin baud config)).1 :=
          .moved u _ _ _ _ _ _ _
        rw [same.pipe (by rw [client]; rfl)]
        exact .stutter
      · rw [client]
        rfl
  | write c =>
      refine ⟨⟨⟨rfl, trivial⟩, .of_outside rfl flag,
        fun _ => ok.udrie notEnabling, ?_⟩, ?_, none, ?_, ?_, rfl⟩
      · intro unwritten
        contradiction
      · intro _ nothing
        contradiction
      · have same : SameTx u (u.enter (.write c)).1 :=
          .moved u _ _ _ _ _ _ _
        rw [same.pipe (by rw [client]; rfl)]
        exact .stutter
      · rw [client]
        rfl
  | _ =>
      refine .moves_outside ok (.moved u _ _ _ _ _ _ _) rfl ⟨rfl, rfl⟩ trivial
        ?_ ?_ rfl rfl
      · intro c position isWrite
        rw [client] at isWrite
        contradiction
      · intro c position isWrite
        contradiction

/-- The client sets the interrupt flag between two calls. -/
theorem Simulates.setFlag
    {u : Usart}
    (ok : u.TxOk)
    (outside : u.inMethod = false)
    (flag : Bool) :
    Simulates u
      ({ u with m := { u.m with sregI := flag }, flag := flag }, []) := by
  have client := client_of_outside outside
  refine .moves ok (.moved u _ _ _ _ _ _ _) rfl ?_ ?_ id rfl rfl rfl rfl
  · exact .of_outside (by rw [client]; rfl) rfl
  · rw [client]
    trivial

/-! ## Register code -/

/-- An access that spares the transmitter, executed with UDRIE clear. -/
theorem sameTx_perform
    {u : Usart}
    {access : Access}
    (spares : access.sparesTransmitter = true)
    (loaded : Byte)
    (clear : loaded.getLsbD udrie0 = false)
    (udrie : u.m.udrie = false)
    (location : At) :
    SameTx u { u with m := u.m.perform loaded access, location := location } ∧
      (u.m.perform loaded access).sregI = u.m.sregI := by
  cases access with
  | assign reg value =>
      refine ⟨⟨rfl, IoFile.bit_store_udre _ _ _, ?_, ?_, rfl, rfl⟩, rfl⟩
      · refine IoFile.bit_store_other _ ?_ _ _
        rintro rfl
        contradiction
      · by_cases status : reg = .ucsr0a
        · subst status
          have kept : value.getLsbD txc0 = false := by
            simpa [Access.sparesTransmitter] using spares
          simp only [txc, Machine.perform, IoFile.bit, IoFile.store,
            storedValue, ↓reduceIte, BitVec.getLsbD_or, BitVec.getLsbD_and,
            BitVec.getLsbD_not, kept, getLsbD_bv]
          simp [ucsr0aStatus, txc0]
        · exact IoFile.bit_store_other _ (Ne.symm status) _ _
  | modify reg keep set =>
      cases reg with
      | ucsr0b =>
          have kept : set.getLsbD udrie0 = false := by
            simpa [Access.sparesTransmitter] using spares
          refine ⟨⟨rfl, IoFile.bit_store_udre _ _ _, ?_,
            IoFile.bit_store_other _ (by decide) _ _, rfl, rfl⟩, rfl⟩
          rw [udrie]
          simp only [Machine.udrie, Machine.perform]
          rw [IoFile.bit_store_same _ (by decide), BitVec.getLsbD_or,
            BitVec.getLsbD_and, clear, kept]
          rfl
      | _ =>
          contradiction
  | _ =>
      contradiction

/-- One step of the register code of `begin` and `end`. -/
theorem Simulates.codeStep
    {u : Usart}
    {opening : Bool}
    {todo : List Access}
    {loaded : Option Byte}
    (ok : u.TxOk)
    (here : u.location = .code opening todo loaded) :
    Simulates u (u.codeStep opening todo loaded, []) := by
  have target := ok.position
  rw [here] at target
  obtain ⟨quiet, spares, held⟩ := target
  have udrie : u.m.udrie = false := by
    have follows := ok.udrie (by rw [here]; rfl)
    rw [← Bool.not_eq_true, follows]
    exact not_not.mpr quiet.txEmpty
  have notWrite : ∀ c position, u.location ≠ .write c position := by
    intro c position isWrite
    rw [here] at isWrite
    contradiction
  have stays : ∀ location, SameTx u { u with location := location } :=
    fun _ => .moved u _ _ _ _ _ _ _
  cases todo with
  | nil =>
      cases opening with
      | true =>
          exact .moves_outside ok (.moved u _ _ _ _ _ _ _) rfl ⟨rfl, rfl⟩ trivial notWrite
            (fun _ _ => nofun) rfl rfl
      | false =>
          exact .moves_outside ok (.moved u _ _ _ _ _ _ _) rfl ⟨rfl, rfl⟩
            ((stays _).quiet quiet) notWrite (fun _ _ => nofun) rfl rfl
  | cons access rest =>
      have performs :
          ∀ value : Byte, value.getLsbD udrie0 = false →
            Simulates u
              ({ u with
                  m := u.m.perform value access
                  location := .code opening rest none }, []) := by
        intro value clear
        obtain ⟨same, sregI⟩ :=
          sameTx_perform (spares access List.mem_cons_self) value clear udrie
            (.code opening rest none)
        exact .moves_outside ok same rfl ⟨sregI, rfl⟩
          ⟨same.quiet quiet,
            fun later member => spares later (List.mem_cons_of_mem _ member),
            fun _ isHeld => by contradiction⟩
          notWrite (fun _ _ => nofun) rfl rfl
      cases access with
      | modify reg keep set =>
          cases loaded with
          | none =>
              refine .moves_outside ok (.moved u _ _ _ _ _ _ _) rfl ⟨rfl, rfl⟩
                ⟨(stays _).quiet quiet, spares, fun value isHeld => ?_⟩
                notWrite (fun _ _ => nofun) rfl rfl
              cases isHeld
              have onControl := spares _ List.mem_cons_self
              cases reg with
              | ucsr0b => exact udrie
              | _ => contradiction
          | some value =>
              exact performs value (held value rfl)
      | assign reg value =>
          refine performs (loaded.getD 0) ?_
          cases loaded with
          | none => rfl
          | some byte => exact held byte rfl
      | _ =>
          have onRegister := spares _ List.mem_cons_self
          contradiction

/-! ## Reading and flushing -/

/-- Methods that only read, and the end of `end()`. -/
theorem Simulates.readingStep
    {u : Usart}
    (ok : u.TxOk)
    (reading : u.location.reading = true) :
    Simulates u u.runStep := by
  have target := ok.position
  have notWrite : ∀ c position, u.location ≠ .write c position := by
    intro c position isWrite
    rw [isWrite] at reading
    contradiction
  have moves :=
    fun after events same written flags position there =>
      @moves_outside u after events ok same written flags position notWrite
        there
  rw [runStep]
  cases location : u.location with
  | client =>
      exact moves _ _ (.moved u _ _ _ _ _ _ _) rfl ⟨rfl, rfl⟩
        ok.position notWrite rfl rfl
  | code opening todo loaded | flush ending position
  | write c position =>
      rw [location] at reading
      contradiction
  | endTail =>
      rw [location] at target
      exact moves _ _ (.moved u _ _ _ _ _ _ _) rfl ⟨rfl, rfl⟩
        (SameTx.quiet (.moved u _ _ _ _ _ _ _) target)
        (fun _ _ => nofun) rfl rfl
  | roomHead =>
      exact moves _ _ (.moved u _ _ _ _ _ _ _) rfl ⟨rfl, rfl⟩ rfl
        (fun _ _ => nofun) rfl rfl
  | readTail head | peekTail head =>
      simp only [readStep, peekStep]
      split <;>
        exact moves _ _ (.moved u _ _ _ _ _ _ _) rfl ⟨rfl, rfl⟩ trivial
          (fun _ _ => nofun) rfl rfl
  | _ =>
      exact moves _ _ (.moved u _ _ _ _ _ _ _) rfl ⟨rfl, rfl⟩ trivial
        (fun _ _ => nofun) rfl rfl

end Usart

end KeyboardEmulator
