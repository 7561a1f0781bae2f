import KeyboardEmulator.SerialPower

namespace KeyboardEmulator

open BootKeyboard (Byte)
open RingBuffer (Ring next)

/-!
# `begin` on a port that still sends

`begin` forgets that something was written and turns the transmit interrupt
off, but leaves the ring as it is.  The next `flush` then returns at once, and
a `write` that finds the ring full waits for a handler that never runs.  This
is what an orderly client is spared by its `flush`.
-/

/-- Nothing but a register is written. -/
def Access.onRegister : Access → Bool
  | .assign _ _ | .modify _ _ _ => true
  | _ => false

namespace Usart

variable {u final : Usart} {events : List Event}

/-- Register code that is left alone runs to its end. -/
theorem run?_opening
    {todo : List Access}
    (onRegister : ∀ access ∈ todo, access.onRegister = true)
    (here : u.location = .code true todo none) :
    ∃ (n : Nat) (io : IoFile),
      u.run? (List.replicate n .run) =
          some
            ({ u with m := { u.m with io := io }, location := .client }, []) ∧
        io.bit .ucsr0b udrie0 =
          codeBit .ucsr0b udrie0 todo (u.m.io.bit .ucsr0b udrie0) := by
  have runs :
      ∀ {v : Usart}, v.inMethod = true → v.step? .run = some v.runStep :=
    fun inside => if_pos inside
  induction todo generalizing u with
  | nil =>
      refine ⟨1, u.m.io, LabelledRun.run?_singleton ?_, rfl⟩
      rw [runs (by rw [inMethod, here]; rfl), runStep, here]
      rfl
  | cons access rest inductionHypothesis =>
      obtain ⟨isRegister, later⟩ := List.forall_mem_cons.mp onRegister
      have first := runs (show u.inMethod = true by rw [inMethod, here]; rfl)
      rw [runStep, here] at first
      cases access with
      | assign reg value =>
          obtain ⟨n, io, ran, bit⟩ :=
            @inductionHypothesis
              { u with
                m := u.m.perform 0 (.assign reg value)
                location := .code true rest none }
              later rfl
          refine ⟨n + 1, io, ?_, bit.trans ?_⟩
          · exact LabelledRun.run?_cons_iff.mpr ⟨_, _, _, first, ran, rfl⟩
          · rw [codeBit_cons]
            exact congrArg _ (control_perform u.m (fun _ _ isModify => by
              contradiction))
      | modify reg keep set =>
          -- the load, then the store
          obtain ⟨n, io, ran, bit⟩ :=
            @inductionHypothesis
              { u with
                m := u.m.perform (u.m.io reg) (.modify reg keep set)
                location := .code true rest none }
              later rfl
          refine ⟨n + 2, io, ?_, bit.trans ?_⟩
          · refine LabelledRun.run?_cons_iff.mpr ⟨_, _, _, first, ?_, rfl⟩
            exact LabelledRun.run?_cons_iff.mpr ⟨_, _, _, rfl, ran, rfl⟩
          · rw [codeBit_cons]
            refine congrArg _ (control_perform u.m (fun _ _ isModify => ?_))
            cases isModify
            rfl
      | _ =>
          contradiction

theorem onRegister_beginCode
    (baud : Nat)
    (config : BitVec 8) :
    ∀ access ∈ HardwareSerial.beginCode baud config,
      access.onRegister = true := by
  intro access member
  rw [HardwareSerial.beginCode] at member
  split at member <;>
    simp only [List.cons_append, List.nil_append, List.mem_cons,
      List.not_mem_nil, or_false] at member <;>
    rcases member with rfl | rfl | rfl | rfl | rfl | rfl | rfl | rfl | rfl <;>
    rfl

theorem udrie_beginCode
    (baud : Nat)
    (config : BitVec 8)
    (x : Bool) :
    codeBit .ucsr0b udrie0 (HardwareSerial.beginCode baud config) x =
      false := by
  rw [HardwareSerial.beginCode]
  split <;> cases x <;> rfl

/--
After another `begin`, `flush` returns at once, with everything that was
queued still in the ring and the transmit interrupt off.
-/
theorem reopening_strands
    (client : u.location = .client)
    (baud : Nat)
    (config : BitVec 8) :
    ∃ n reached,
      u.run?
          (.call (.begin baud config) :: List.replicate n .run ++
            [.call .flush, .run, .run]) =
        some (reached, [.flushed]) ∧
        reached.location = .client ∧
          reached.m.udrie = false ∧
            reached.m.tx = u.m.tx ∧
              reached.m.sregI = u.m.sregI := by
  obtain ⟨n, io, ran, bit⟩ :=
    @run?_opening (u.enter (.begin baud config)).1
      (HardwareSerial.beginCode baud config)
      (onRegister_beginCode baud config) rfl
  have entered :
      u.step? (.call (.begin baud config)) =
        some (u.enter (.begin baud config)) := by
    simp [step?, inMethod, client]
  refine ⟨n,
    { u with
      m := { u.m with io := io }
      written := false
      location := .client }, ?_, rfl, ?_, rfl, rfl⟩
  · have opened :=
      LabelledRun.run?_cons_iff.mpr ⟨_, _, _, entered, ran, rfl⟩
    exact LabelledRun.run?_append opened rfl
  · exact bit.trans (udrie_beginCode baud config _)

theorem run?_writesTwo :
    (powerOn.run? writesTwo).isSome = true := by
  decide +kernel

theorem reopening_strands_writesTwo :
    ∃ n reached,
      ((powerOn.run? writesTwo).get run?_writesTwo).1.run?
          (.call (.begin 19200 HardwareSerial.serial8N1) ::
            List.replicate n .run ++ [.call .flush, .run, .run]) =
        some (reached, [.flushed]) ∧
        reached.location = .client ∧
          reached.m.udrie = false ∧
            reached.m.tx =
                ((powerOn.run? writesTwo).get run?_writesTwo).1.m.tx ∧
              reached.m.sregI =
                ((powerOn.run? writesTwo).get run?_writesTwo).1.m.sregI :=
  reopening_strands (by decide +kernel) 19200 HardwareSerial.serial8N1

/-! ## A `write` that hangs -/

/-- What `write` has read on its way to its loop or in it, with the ring full. -/
def HangsAt (u : Usart) : WriteAt → Prop
  | .compareHead | .nextIndex => True
  | .compareTail head => head = u.m.tx.wr
  | .spin i | .spinSreg i => i = u.m.tx.rd
  | _ => False

/-- `write` waits for room, and no handler will make any. -/
structure Hangs (c : Byte) (u : Usart) : Prop where
  position : ∃ position, u.location = .write c position ∧ u.HangsAt position
  full : u.m.tx.Full
  udrie : u.m.udrie = false
  sregI : u.m.sregI = true

/-- The loop goes round. -/
theorem Hangs.runStep
    {c : Byte}
    (hangs : Hangs c u) :
    Hangs c u.runStep.1 ∧ .wrote ∉ u.runStep.2 := by
  obtain ⟨⟨position, here, reached⟩, full, udrie, sregI⟩ := hangs
  have notEmpty : u.m.tx.wr ≠ u.m.tx.rd :=
    fun same => Ring.not_full_of_empty (by decide) same.symm full
  rw [Usart.runStep, here]
  cases position with
  | compareHead =>
      exact ⟨⟨⟨_, rfl, rfl⟩, full, udrie, sregI⟩, by simp [writeStep]⟩
  | compareTail head =>
      have notSame : head ≠ u.m.tx.rd := fun same =>
        notEmpty (Eq.trans (Eq.symm reached) same)
      simp only [writeStep, Machine.writeStep, reduceCtorEq, ↓reduceIte,
        if_neg notSame]
      exact ⟨⟨⟨_, rfl, trivial⟩, full, udrie, sregI⟩, List.not_mem_nil⟩
  | nextIndex =>
      exact ⟨⟨⟨_, rfl, full⟩, full, udrie, sregI⟩, by simp [writeStep]⟩
  | spin i =>
      simp only [writeStep, Machine.writeStep, reduceCtorEq, ↓reduceIte,
        if_pos (show i = u.m.tx.rd from reached)]
      exact ⟨⟨⟨_, rfl, reached⟩, full, udrie, sregI⟩, List.not_mem_nil⟩
  | spinSreg i =>
      have notOff : ¬ u.m.sregI = false := by simp [sregI]
      simp only [writeStep, Machine.writeStep, reduceCtorEq, ↓reduceIte,
        if_neg notOff]
      exact ⟨⟨⟨_, rfl, reached⟩, full, udrie, sregI⟩, List.not_mem_nil⟩
  | _ =>
      exact reached.elim

/-- Handlers and hardware that leave the ring, UDRIE and the flag alone. -/
theorem Hangs.of_same
    {c : Byte}
    (hangs : Hangs c u)
    (tx : final.m.tx = u.m.tx)
    (udrie : final.m.udrie = u.m.udrie)
    (sregI : final.m.sregI = u.m.sregI)
    (location : final.location = u.location) :
    Hangs c final := by
  obtain ⟨⟨position, here, reached⟩, full, off, on⟩ := hangs
  refine ⟨⟨position, location.trans here, ?_⟩, tx ▸ full, udrie.trans off,
    sregI.trans on⟩
  cases position with
  | compareTail | spin | spinSreg =>
      rw [HangsAt, tx]
      exact reached
  | _ =>
      exact reached

/-- Nothing that can happen lets `write` out of its loop. -/
theorem Hangs.step?
    {c : Byte}
    {action : Action}
    {result : Usart × List Event}
    (hangs : Hangs c u)
    (stepped : u.step? action = some result) :
    Hangs c result.1 ∧ .wrote ∉ result.2 := by
  have inside : u.inMethod = true := by
    obtain ⟨position, here, -⟩ := hangs.position
    rw [inMethod, here]
    rfl
  have forced :
      ∀ (b : Nat) (level : Bool),
        (u.m.io.force .ucsr0a b level).bit .ucsr0b udrie0 = u.m.udrie :=
    fun b level => IoFile.bit_force_other _ (by decide) _ _ _
  cases step?_inversion stepped with
  | call outside | setFlag outside =>
      rw [inside] at outside
      contradiction
  | run =>
      exact hangs.runStep
  | dataRegisterEmpty enabled udrie udre =>
      exact absurd (udrie.symm.trans hangs.udrie) (by decide)
  | usartReceive enabled rxcie c parityError result handled =>
      subst handled
      obtain ⟨same, sregI, -⟩ := sameTx_usartReceive u c parityError enabled
      refine ⟨hangs.of_same same.tx same.udrie sregI rfl, ?_⟩
      rw [receiveEvent]
      split <;> simp
  | load | finishLast =>
      exact ⟨hangs.of_same rfl (forced _ _) rfl rfl, by simp⟩
  | finishNext =>
      exact ⟨hangs.of_same rfl rfl rfl rfl, by simp⟩

theorem Hangs.run?
    {c : Byte}
    {actions : List Action}
    (hangs : Hangs c u)
    (ran : u.run? actions = some (final, events)) :
    Hangs c final ∧ .wrote ∉ events := by
  induction actions generalizing u events with
  | nil =>
      cases ran
      exact ⟨hangs, List.not_mem_nil⟩
  | cons action rest inductionHypothesis =>
      obtain ⟨middle, first, later, stepped, continued, rfl⟩ :=
        LabelledRun.run?_cons_iff.mp ran
      obtain ⟨still, notHere⟩ := hangs.step? stepped
      obtain ⟨atEnd, notLater⟩ := inductionHypothesis still continued
      exact ⟨atEnd, fun wrote => (List.mem_append.mp wrote).elim notHere notLater⟩

/--
With the ring full and the transmit interrupt off, as another `begin` leaves
them, no run leads out of `write`.
-/
theorem write_hangs
    (client : u.location = .client)
    (full : u.m.tx.Full)
    (off : u.m.udrie = false)
    (on : u.m.sregI = true)
    (c : Byte)
    {actions : List Action}
    (ran : u.run? (.call (.write c) :: actions) = some (final, events)) :
    (∃ position, final.location = .write c position) ∧ .wrote ∉ events := by
  obtain ⟨middle, first, later, stepped, continued, rfl⟩ :=
    LabelledRun.run?_cons_iff.mp ran
  have entered : u.step? (.call (.write c)) = some (u.enter (.write c)) := by
    simp [step?, inMethod, client]
  obtain ⟨rfl, rfl⟩ := Prod.mk.inj (Option.some.inj (stepped.symm.trans entered))
  have hangs : Hangs c (u.enter (.write c)).1 :=
    ⟨⟨.compareHead, rfl, trivial⟩, full, off, on⟩
  obtain ⟨⟨⟨position, here, -⟩, -⟩, notWrote⟩ := hangs.run? continued
  exact ⟨⟨position, here⟩, by simpa [enter] using notWrote⟩

/-- A client fills the ring and opens the port once more. -/
def fillsAndReopens : List Action :=
  writesTwo ++
    (List.replicate 62
      (.call (.write (BootKeyboard.ascii 'c')) ::
        List.replicate 13 .run)).flatten ++
      .call (.begin 19200 HardwareSerial.serial8N1) :: List.replicate 13 .run

theorem run?_fillsAndReopens :
    (powerOn.run? fillsAndReopens).isSome = true := by
  decide +kernel

/-- What that leaves. -/
def stranded : Usart :=
  ((powerOn.run? fillsAndReopens).get run?_fillsAndReopens).1

/-- Twice round the loop, while what was in UDR0 goes out. -/
def roundAndRound : List Action :=
  [.run, .run, .run, .run, .load, .run, .finish, .run, .run]

theorem run?_roundAndRound :
    (stranded.run?
      (.call (.write (BootKeyboard.ascii 'd')) :: roundAndRound)).isSome =
        true := by
  decide +kernel

theorem write_hangs_fillsAndReopens :
    ∃ final events,
      stranded.run?
          (.call (.write (BootKeyboard.ascii 'd')) :: roundAndRound) =
        some (final, events) ∧
        (∃ position,
          final.location = .write (BootKeyboard.ascii 'd') position) ∧
          .wrote ∉ events := by
  obtain ⟨⟨final, events⟩, ran⟩ :=
    Option.isSome_iff_exists.mp run?_roundAndRound
  have stays :=
    @write_hangs stranded final events (by decide +kernel) (by decide +kernel)
      (by decide +kernel) (by decide +kernel) (BootKeyboard.ascii 'd')
      roundAndRound ran
  exact ⟨final, events, ran, stays⟩

end Usart

end KeyboardEmulator
