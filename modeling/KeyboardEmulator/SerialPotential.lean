import KeyboardEmulator.SerialDelivery

namespace KeyboardEmulator

open BootKeyboard (Byte)
open RingBuffer (Ring next)

/-!
# What is left of a call

`flush` and a `write` that finds the ring full wait for the transmitter, with
interrupts on for its handler, with interrupts off by calling the handler
themselves.  Each step other than such a wait uses up some of a potential.
-/

/-- The loop of `write` that waits for room. -/
def WriteAt.spins : WriteAt → Bool
  | .spin _ | .spinSreg _ | .spinUdre _ => true
  | _ => false

namespace Usart

/-- The loops find that interrupts are off and UDR0 is empty. -/
def canPoll (u : Usart) : Bool :=
  !u.m.sregI && u.m.udre

/-- The loop of `flush` finds that all is sent. -/
def allSent (u : Usart) : Bool :=
  !u.m.udrie && u.txc

/-- Steps left in `flush` once all is sent. -/
def exitCost : FlushAt → Nat
  | .testWritten => 8
  | .testSreg => 5
  | .testUdrieOff | .testUdre => 4
  | .testUdrie => 3
  | .testTxc => 2
  | .ret => 1

/-- Steps up to the call of the handler in `flush`. -/
def pollCost : FlushAt → Nat
  | .testWritten => 8
  | .testTxc => 6
  | .testUdrie => 5
  | .testSreg => 4
  | .testUdrieOff => 3
  | .testUdre => 2
  | .ret => 1

/-- The loop of `flush`. -/
def FlushAt.inLoop : FlushAt → Bool
  | .testWritten | .ret => false
  | _ => true

def flushCost (u : Usart) (position : FlushAt) : Nat :=
  if u.allSent then exitCost position
  else if u.canPoll && u.m.udrie then pollCost position
  else if FlushAt.inLoop position then 7
  else exitCost position

/-- Steps left in `write`, and a share for the byte it hands on. -/
def writeCost (u : Usart) : WriteAt → Nat
  | .compareHead => 28
  | .compareTail _ => 27
  | .testUdre => 26
  | .nextIndex => 25
  | .spin i =>
      if i ≠ u.m.tx.rd then 20 else if u.canPoll then 23 else 24
  | .spinSreg i =>
      if i ≠ u.m.tx.rd then 21 else if u.canPoll then 22 else 24
  | .spinUdre i =>
      if i ≠ u.m.tx.rd then 21 else if u.canPoll then 21 else 24
  | .cellIndex _ => 19
  | .cell _ _ => 18
  | .slowSave _ => 17
  | .slowCli _ => 16
  | .slowHead _ => 15
  | .fastSave => 9
  | .fastCli => 8
  | .fastUdr => 7
  | .fastUcsra none | .slowUcsrb none => 4
  | .fastUcsra (some _) | .slowUcsrb (some _) => 3
  | .fastRestore | .slowRestore => 2
  | .ret => 1

/-- Steps left in register code and after it. -/
def codeCost
    (opening : Bool)
    (todo : List Access)
    (loaded : Option Byte) : Nat :=
  2 * todo.length + (if loaded.isSome then 1 else 2) +
    (if opening then 0 else 2)

/-- Steps left in the method that runs. -/
def methodCost (u : Usart) : At → Nat
  | .client => 0
  | .code opening todo loaded => codeCost opening todo loaded
  | .endTail | .availableHead | .roomHead | .peekIndex => 2
  | .endHead _ | .availableTail _ | .roomTail _ | .peekCell _ => 1
  | .peekTail _ => 3
  | .peekHead => 4
  | .readHead => 6
  | .readTail _ => 5
  | .readIndex => 4
  | .readCell _ => 3
  | .readNext _ => 2
  | .readStore _ _ => 1
  | .flush ending position =>
      u.flushCost position +
        (if ending then codeCost false endCode none else 0)
  | .write _ position => u.writeCost position

/-- What the bytes on their way still cost. -/
def weight (u : Usart) : Nat :=
  10 * u.m.tx.occupancy + (if u.m.udre then 0 else 2) +
    (if u.shifting.isSome then 1 else 0)

/-- What is left to do, weighted so that every step but a wait uses some up. -/
def potential (u : Usart) : Nat :=
  u.weight + u.methodCost u.location

/-- A method waits for the transmitter. -/
def waits (u : Usart) : Bool :=
  match u.location with
  | .flush _ position =>
      FlushAt.inLoop position && !u.allSent && !(u.canPoll && u.m.udrie)
  | .write _ (.spin i) | .write _ (.spinSreg i) | .write _ (.spinUdre i) =>
      decide (i = u.m.tx.rd) && !u.canPoll
  | _ =>
      false

/-- The client neither calls a method nor sets the flag. -/
def Action.isClient : Action → Bool
  | .call _ | .setFlag _ => true
  | _ => false

/-- The steps that are bounded: those of methods and transmitter except waits. -/
def counted (u : Usart) : Action → Bool
  | .run => !u.waits
  | .dataRegisterEmpty | .load | .finish => true
  | .call _ | .setFlag _ | .usartReceive _ _ => false

variable {before after : Usart}

theorem SameTx.canPoll
    (same : SameTx before after)
    (sregI : after.m.sregI = before.m.sregI) :
    after.canPoll = before.canPoll := by
  rw [Usart.canPoll, Usart.canPoll, same.udre, sregI]

theorem SameTx.methodCost
    (same : SameTx before after)
    (sregI : after.m.sregI = before.m.sregI)
    (location : At) :
    after.methodCost location = before.methodCost location := by
  cases location with
  | flush ending position =>
      have sent : after.allSent = before.allSent := by
        rw [allSent, allSent, same.udrie, same.txc]
      rw [Usart.methodCost, Usart.methodCost, flushCost, flushCost, sent,
        same.canPoll sregI, same.udrie]
  | write c position =>
      cases position <;>
        simp only [Usart.methodCost, writeCost, same.canPoll sregI, same.tx]
  | _ =>
      rfl

theorem SameTx.weight
    (same : SameTx before after) :
    after.weight = before.weight := by
  rw [Usart.weight, Usart.weight, same.tx, same.udre, same.shifting]

/-- A step that leaves the transmitter alone pays out of the method's steps. -/
theorem potential_of_same
    {u after : Usart}
    {steps : Nat}
    (same : SameTx u after)
    (sregI : after.m.sregI = u.m.sregI)
    (cost :
      u.methodCost after.location + steps ≤ u.methodCost u.location) :
    after.potential + steps ≤ u.potential := by
  rw [potential, potential, same.weight, same.methodCost sregI]
  omega

/-! ## Steps of the method that runs -/

theorem flushCost_pos (u : Usart) (position : FlushAt) :
    1 ≤ u.flushCost position := by
  rw [flushCost]
  split
  · cases position <;> decide
  · split
    · cases position <;> decide
    · cases position <;> decide

theorem flushCost_le (u : Usart) (position : FlushAt) :
    u.flushCost position ≤ 8 := by
  rw [flushCost]
  split
  · cases position <;> decide
  · split
    · cases position <;> decide
    · cases position <;> decide

theorem flushCost_le_of_inLoop
    (u : Usart)
    {position : FlushAt}
    (inLoop : FlushAt.inLoop position = true) :
    u.flushCost position ≤ 7 := by
  rw [flushCost]
  split
  · cases position <;> first | decide | contradiction
  · split
    · cases position <;> first | decide | contradiction
    · exact Nat.le_refl 7

/-- The handler takes a byte's share. -/
theorem Transmits.weight
    {u after : Usart}
    (transmits : Transmits u after)
    (nonempty : ¬ u.m.tx.Empty)
    (udre : u.m.udre = true) :
    after.weight + 8 = u.weight := by
  have shorter := Ring.occupancy_release nonempty
  simp only [Usart.weight, transmits.tx, transmits.udre,
    transmits.shifting, udre, Bool.false_eq_true, ↓reduceIte]
  omega

theorem pays_codeStep
    {u : Usart}
    {opening : Bool}
    {todo : List Access}
    {loaded : Option Byte}
    (ok : u.TxOk)
    (here : u.location = .code opening todo loaded) :
    (u.codeStep opening todo loaded).potential + 1 ≤ u.potential := by
  have target := ok.position
  rw [here] at target
  obtain ⟨quiet, spares, held⟩ := target
  have udrie : u.m.udrie = false := by
    have follows := ok.udrie (by rw [here]; rfl)
    rw [← Bool.not_eq_true, follows]
    exact not_not.mpr quiet.txEmpty
  have performs :
      ∀ access rest value,
        access.sparesTransmitter = true →
          value.getLsbD udrie0 = false →
            codeCost opening rest none + 1 ≤ codeCost opening todo loaded →
              ({ u with
                  m := u.m.perform value access
                  location := .code opening rest none } : Usart).potential +
                1 ≤ u.potential := by
    intro access rest value spared clear shorter
    obtain ⟨same, sregI⟩ :=
      sameTx_perform spared value clear udrie (.code opening rest none)
    refine potential_of_same same sregI ?_
    rw [here]
    exact shorter
  cases todo with
  | nil =>
      refine potential_of_same (.moved u _ _ _ _ _ _ _) rfl ?_
      rw [here]
      cases opening <;> cases loaded <;>
        simp [codeStep, methodCost, codeCost]
  | cons access rest =>
      have spared := spares access List.mem_cons_self
      cases access with
      | modify reg keep set =>
          cases loaded with
          | none =>
              refine potential_of_same (.moved u _ _ _ _ _ _ _) rfl ?_
              rw [here]
              exact Nat.le_of_eq (by simp [codeStep, methodCost, codeCost]; omega)
          | some value =>
              refine performs _ _ value spared (held value rfl) ?_
              simp only [codeCost, List.length_cons, Option.isSome_none,
                Option.isSome_some, Bool.false_eq_true, ↓reduceIte]
              omega
      | assign reg value =>
          refine performs _ _ (loaded.getD 0) spared ?_ ?_
          · cases loaded with
            | none => rfl
            | some byte => exact held byte rfl
          · cases loaded <;>
              simp only [codeCost, List.length_cons, Option.isSome_none,
                Option.isSome_some, Bool.false_eq_true, ↓reduceIte] <;>
              omega
      | _ =>
          contradiction

/-- A loop that calls the handler goes on, whether it waited or not. -/
theorem pays_poll
    {u after : Usart}
    (nonempty : ¬ u.m.tx.Empty)
    (udre : u.m.udre = true)
    (transmits : Transmits u after)
    (cost :
      after.methodCost after.location ≤ u.methodCost u.location + 7)
    (waits : Bool) :
    after.potential + (if waits then 0 else 1) ≤ u.potential := by
  have paid := transmits.weight nonempty udre
  rw [potential, potential]
  split <;> omega

/-- `flush` comes nearer to its end, or waits. -/
theorem pays_flushStep
    {u : Usart}
    {ending : Bool}
    {position : FlushAt}
    (ok : u.TxOk)
    (here : u.location = .flush ending position) :
    (u.flushStep ending position).1.potential +
      (if u.waits then 0 else 1) ≤ u.potential := by
  have target := ok.position
  rw [here] at target
  have moves :
      ∀ there : FlushAt,
        u.flushCost there + (if u.waits then 0 else 1) ≤
          u.flushCost position →
            ({ u with location := .flush ending there } : Usart).potential +
              (if u.waits then 0 else 1) ≤ u.potential := by
    intro there cost
    refine potential_of_same (.moved u _ _ _ _ _ _ _) rfl ?_
    rw [here]
    simp only [methodCost]
    omega
  cases position with
  | testWritten =>
      have most := fun there inLoop => @flushCost_le_of_inLoop u there inLoop
      have waits : u.waits = false := by
        simp [Usart.waits, here, FlushAt.inLoop]
      have all : u.flushCost .testWritten = 8 := by
        simp [flushCost, exitCost, pollCost, FlushAt.inLoop]
      rw [waits] at moves ⊢
      rw [flushStep]
      split
      next =>
        refine moves .testUdrie ?_
        rw [all]
        exact Nat.succ_le_succ (most .testUdrie rfl)
      next =>
        refine moves .ret ?_
        simp [flushCost, exitCost, pollCost, FlushAt.inLoop]
  | ret =>
      have all : u.flushCost .ret = 1 := by
        simp [flushCost, exitCost, pollCost, FlushAt.inLoop]
      have waits : u.waits = false := by
        simp [Usart.waits, here, FlushAt.inLoop]
      rw [waits]
      refine potential_of_same (.moved u _ _ _ _ _ _ _) rfl ?_
      rw [here]
      cases ending with
      | false =>
          rw [methodCost, all]
          exact Nat.le_refl 1
      | true =>
          rw [methodCost, all]
          exact Nat.le_of_eq (Nat.add_comm _ 1)
  | testUdre =>
      rw [flushStep]
      split
      next udre =>
        obtain ⟨_, off, nonempty⟩ := target
        have udrie : u.m.udrie = true :=
          (ok.udrie (by rw [here]; rfl)).mpr nonempty
        refine pays_poll nonempty udre ?_ ?_ _
        · exact transmits_txUdrEmptyIrq udrie rfl rfl rfl rfl
        · rw [here]
          have atLeast := u.flushCost_pos .testUdre
          refine
            (Nat.add_le_add_right (flushCost_le_of_inLoop _ rfl) _).trans ?_
          simp only [methodCost]
          omega
      next udre =>
        refine moves .testUdrie ?_
        have unready : u.canPoll = false := by
          simp [canPoll, Machine.udre, udre]
        simp only [Usart.waits, here, flushCost, unready]
        cases u.allSent <;> simp [FlushAt.inLoop, exitCost]
  | testUdrie =>
      rw [flushStep]
      split
      next udrie =>
        refine moves .testSreg ?_
        have isSet : u.m.udrie = true := udrie
        simp only [Usart.waits, here, flushCost, allSent, isSet]
        cases u.canPoll <;> simp [FlushAt.inLoop, pollCost]
      next udrie =>
        refine moves .testTxc ?_
        have isClear : u.m.udrie = false := Bool.not_eq_true _ ▸ udrie
        simp only [Usart.waits, here, flushCost, allSent, isClear]
        cases u.txc <;> simp [FlushAt.inLoop, exitCost]
  | testTxc =>
      obtain ⟨_, txEmpty⟩ := target
      have isClear : u.m.udrie = false := by
        have follows := ok.udrie (by rw [here]; rfl)
        rw [← Bool.not_eq_true, follows]
        exact not_not.mpr txEmpty
      rw [flushStep]
      split
      next complete =>
        refine moves .ret ?_
        have isComplete : u.txc = true := complete
        simp [Usart.waits, here, flushCost, allSent, isClear, isComplete,
          FlushAt.inLoop, exitCost]
      next incomplete =>
        refine moves .testSreg ?_
        have notComplete : u.txc = false := Bool.not_eq_true _ ▸ incomplete
        simp [Usart.waits, here, flushCost, allSent, isClear, notComplete,
          FlushAt.inLoop]
  | testSreg =>
      rw [flushStep]
      split
      next enabled =>
        refine moves .testUdrie ?_
        simp only [Usart.waits, here, flushCost, canPoll, enabled]
        cases u.allSent <;> simp [FlushAt.inLoop, exitCost]
      next =>
        refine moves .testUdrieOff ?_
        simp only [Usart.waits, here, flushCost]
        cases u.allSent <;> cases u.canPoll && u.m.udrie <;>
          simp [FlushAt.inLoop, exitCost, pollCost]
  | testUdrieOff =>
      rw [flushStep]
      split
      next udrie =>
        refine moves .testUdre ?_
        have isSet : u.m.udrie = true := udrie
        simp only [Usart.waits, here, flushCost, allSent, isSet]
        cases u.canPoll <;> simp [FlushAt.inLoop, pollCost]
      next udrie =>
        refine moves .testUdrie ?_
        have isClear : u.m.udrie = false := Bool.not_eq_true _ ▸ udrie
        simp only [Usart.waits, here, flushCost, allSent, isClear]
        cases u.txc <;> simp [FlushAt.inLoop, exitCost]

/-- The loop of `write` costs about the same wherever it is. -/
theorem spinCost_bounds
    (u : Usart)
    {position : WriteAt}
    (spins : position.spins = true) :
    20 ≤ u.writeCost position ∧ u.writeCost position ≤ 24 := by
  cases position with
  | spin i | spinSreg i | spinUdre i =>
      rw [writeCost]
      split
      · omega
      · split <;> omega
  | _ =>
      contradiction

theorem writeCost_le (u : Usart) (position : WriteAt) :
    u.writeCost position ≤ 28 := by
  by_cases spins : position.spins = true
  · exact (u.spinCost_bounds spins).2.trans (by decide)
  · cases position with
    | spin i | spinSreg i | spinUdre i =>
        contradiction
    | fastUcsra loaded | slowUcsrb loaded =>
        cases loaded <;> simp [writeCost]
    | _ =>
        simp [writeCost]

section Write

variable {u after : Usart} {c : Byte} {position there : WriteAt}

/-- Outside of its loop `write` never waits. -/
theorem waits_of_notSpin
    (here : u.location = .write c position)
    (notSpin : position.spins = false) :
    u.waits = false := by
  rw [Usart.waits, here]
  cases position <;> first | rfl | contradiction

theorem pays_write
    (here : u.location = .write c position)
    (location : after.location = .write c there)
    (cost :
      after.weight + after.writeCost there + (if u.waits then 0 else 1) ≤
        u.weight + u.writeCost position) :
    after.potential + (if u.waits then 0 else 1) ≤ u.potential := by
  rw [potential, potential, location, here]
  simp only [methodCost]
  omega

/-- A step that leaves the transmitter alone. -/
theorem moves_write
    (here : u.location = .write c position)
    (location : after.location = .write c there)
    (same : SameTx u after)
    (cost :
      after.writeCost there + (if u.waits then 0 else 1) ≤
        u.writeCost position) :
    after.potential + (if u.waits then 0 else 1) ≤ u.potential := by
  refine pays_write here location ?_
  rw [same.weight]
  omega

/-- A step of the loop, which leaves the interrupt flag alone as well. -/
theorem stays_write
    (here : u.location = .write c position)
    (location : after.location = .write c there)
    (same : SameTx u after)
    (sregI : after.m.sregI = u.m.sregI)
    (cost :
      u.writeCost there + (if u.waits then 0 else 1) ≤
        u.writeCost position) :
    after.potential + (if u.waits then 0 else 1) ≤ u.potential := by
  refine potential_of_same same sregI ?_
  rw [location, here]
  exact cost

/--
In its loop `write` waits for the interrupt handler, or for the data register if
it has to poll.
-/
theorem pays_polling
    (ok : u.TxOk)
    (here : u.location = .write c position)
    (spins : position.spins = true) :
    (u.writeStep c position).1.potential +
      (if u.waits then 0 else 1) ≤ u.potential := by
  have target := ok.position
  rw [here] at target
  obtain ⟨_, target⟩ := target
  have stays (after : Usart) (there : WriteAt) :=
    @stays_write u after c position there here
  have moves (after : Usart) (there : WriteAt) :=
    @moves_write u after c position there here
  cases position with
  | spin i =>
      by_cases full : i = u.m.tx.rd
      · have waits : u.waits = !u.canPoll := by
          simp [Usart.waits, here, full]
        rw [waits] at stays ⊢
        simp only [Usart.writeStep, Machine.writeStep, if_pos full]
        refine stays _ (.spinSreg i) rfl (.moved u _ _ _ _ _ _ _) rfl ?_
        simp only [writeCost, full, ne_eq, not_true_eq_false, ↓reduceIte]
        cases u.canPoll <;> decide
      · have waits : u.waits = false := by
          simp [Usart.waits, here, full]
        rw [waits] at moves ⊢
        simp only [Usart.writeStep, Machine.writeStep, if_neg full]
        refine moves _ (.cellIndex i) rfl (.moved u _ _ _ _ _ _ _) ?_
        simp [writeCost, full]
  | spinSreg i =>
      obtain ⟨isNext, isFull⟩ := target
      by_cases off : u.m.sregI = false
      · have full : i = u.m.tx.rd := isNext.trans (isFull off)
        have waits : u.waits = !u.canPoll := by
          simp [Usart.waits, here, full]
        rw [waits] at stays ⊢
        simp only [Usart.writeStep, Machine.writeStep, if_pos off]
        refine stays _ (.spinUdre i) rfl (.moved u _ _ _ _ _ _ _) rfl ?_
        simp only [writeCost, full, ne_eq, not_true_eq_false, ↓reduceIte]
        cases u.canPoll <;> decide
      · have unready : u.canPoll = false := by
          simp [canPoll, off]
        have waits : u.waits = decide (i = u.m.tx.rd) := by
          simp [Usart.waits, here, unready]
        rw [waits] at stays ⊢
        simp only [Usart.writeStep, Machine.writeStep, if_neg off]
        refine stays _ (.spin i) rfl (.moved u _ _ _ _ _ _ _) rfl ?_
        by_cases full : i = u.m.tx.rd <;>
          simp [writeCost, full, unready]
  | spinUdre i =>
      obtain ⟨isNext, off, isFull⟩ := target
      have full : i = u.m.tx.rd := isNext.trans isFull
      by_cases udre : u.m.io.bit .ucsr0a udre0 = true
      · have nonempty : ¬ u.m.tx.Empty :=
          fun empty => Ring.not_full_of_empty (by decide) empty isFull
        have udrie : u.m.udrie = true :=
          (ok.udrie (by rw [here]; rfl)).mpr nonempty
        simp only [Usart.writeStep, Machine.writeStep, if_pos udre]
        refine pays_poll nonempty udre ?_ ?_ _
        · exact transmits_txUdrEmptyIrq udrie rfl rfl rfl rfl
        · rw [here]
          have atLeast := (@spinCost_bounds u (.spinUdre i) rfl).1
          exact (@spinCost_bounds _ (.spin i) rfl).2.trans
            (by simp only [methodCost]; omega)
      · have unready : u.canPoll = false := by
          simp [canPoll, Machine.udre, udre]
        have waits : u.waits = true := by
          simp [Usart.waits, here, full, unready]
        rw [waits] at stays ⊢
        simp only [Usart.writeStep, Machine.writeStep, if_neg udre]
        refine stays _ (.spin i) rfl (.moved u _ _ _ _ _ _ _) rfl ?_
        simp [writeCost, full, unready]
  | _ =>
      contradiction

/-- `write` comes nearer to its end, or waits. -/
theorem pays_writeStep
    (ok : u.TxOk)
    (here : u.location = .write c position) :
    (u.writeStep c position).1.potential +
      (if u.waits then 0 else 1) ≤ u.potential := by
  have target := ok.position
  rw [here] at target
  obtain ⟨_, target⟩ := target
  have noWait := @waits_of_notSpin u c position here
  have pays (after : Usart) (there : WriteAt) :=
    @pays_write u after c position there here
  have moves (after : Usart) (there : WriteAt) :=
    @moves_write u after c position there here
  cases position with
  | compareHead =>
      rw [noWait rfl] at moves ⊢
      exact moves _ (.compareTail u.m.tx.wr) rfl (.moved u _ _ _ _ _ _ _)
        (Nat.le_refl _)
  | compareTail head =>
      rw [noWait rfl] at moves ⊢
      by_cases same : head = u.m.tx.rd
      · simp only [Usart.writeStep, Machine.writeStep, if_pos same]
        exact moves _ .testUdre rfl (.moved u _ _ _ _ _ _ _)
          (Nat.le_refl _)
      · simp only [Usart.writeStep, Machine.writeStep, if_neg same]
        exact moves _ .nextIndex rfl (.moved u _ _ _ _ _ _ _)
          (Nat.le_succ _)
  | testUdre =>
      rw [noWait rfl] at moves ⊢
      by_cases udre : u.m.io.bit .ucsr0a udre0 = true
      · simp only [Usart.writeStep, Machine.writeStep, if_pos udre]
        exact moves _ .fastSave rfl (.moved u _ _ _ _ _ _ _)
          (by decide : 10 ≤ 26)
      · simp only [Usart.writeStep, Machine.writeStep, if_neg udre]
        exact moves _ .nextIndex rfl (.moved u _ _ _ _ _ _ _)
          (Nat.le_refl _)
  | fastSave =>
      rw [noWait rfl] at moves ⊢
      exact moves _ .fastCli rfl (.moved u _ _ _ _ _ _ _) (Nat.le_refl _)
  | fastCli =>
      rw [noWait rfl] at moves ⊢
      exact moves _ .fastUdr rfl (.moved u _ _ _ _ _ _ _) (Nat.le_refl _)
  | fastUdr =>
      rw [noWait rfl] at pays ⊢
      have full : (u.writeStep c .fastUdr).1.m.udre = false :=
        IoFile.bit_force_same _ _ (by decide) _
      refine pays _ (.fastUcsra none) rfl ?_
      rw [Usart.weight, full]
      simp only [Usart.weight, target.2, writeCost, ↓reduceIte]
      exact Nat.le_of_eq (by
        simp [Usart.writeStep, Machine.writeStep, absorb]
        omega)
  | fastUcsra loaded =>
      rw [noWait rfl] at moves pays ⊢
      cases loaded with
      | none =>
          exact moves _ (.fastUcsra (some (u.m.io .ucsr0a))) rfl
            (.moved u _ _ _ _ _ _ _) (Nat.le_refl _)
      | some ucsra =>
          have udre :
              (u.writeStep c (.fastUcsra (some ucsra))).1.m.udre =
                u.m.udre :=
            IoFile.bit_store_udre _ _ _
          refine pays _ .fastRestore rfl ?_
          rw [Usart.weight, udre]
          exact Nat.le_refl _
  | fastRestore =>
      rw [noWait rfl] at moves ⊢
      exact moves _ .ret rfl (.moved u _ _ _ _ _ _ _) (Nat.le_refl _)
  | nextIndex =>
      rw [noWait rfl] at moves ⊢
      exact moves _ (.spin (next u.m.tx.wr)) rfl (.moved u _ _ _ _ _ _ _)
        (Nat.succ_le_succ
          (@spinCost_bounds _ (.spin (next u.m.tx.wr)) rfl).2)
  | spin i | spinSreg i | spinUdre i =>
      exact pays_polling ok here rfl
  | cellIndex i =>
      rw [noWait rfl] at moves ⊢
      exact moves _ (.cell i u.m.tx.wr) rfl (.moved u _ _ _ _ _ _ _)
        (Nat.le_refl _)
  | cell i head =>
      rw [noWait rfl] at pays ⊢
      exact pays _ (.slowSave i) rfl (Nat.le_refl _)
  | slowSave i =>
      rw [noWait rfl] at moves ⊢
      exact moves _ (.slowCli i) rfl (.moved u _ _ _ _ _ _ _) (Nat.le_refl _)
  | slowCli i =>
      rw [noWait rfl] at moves ⊢
      exact moves _ (.slowHead i) rfl (.moved u _ _ _ _ _ _ _)
        (Nat.le_refl _)
  | slowHead i =>
      rw [noWait rfl] at pays ⊢
      obtain ⟨⟨rfl, room⟩, _⟩ := target
      have longer := Ring.occupancy_commit room
      have stays : (u.writeStep c (.slowHead (next u.m.tx.wr))).1.weight =
          u.weight + 10 := by
        have committed :
            (u.writeStep c (.slowHead (next u.m.tx.wr))).1.m.tx.occupancy =
              u.m.tx.occupancy + 1 :=
          longer
        have udre :
            (u.writeStep c (.slowHead (next u.m.tx.wr))).1.m.udre =
              u.m.udre :=
          rfl
        have shifting :
            (u.writeStep c (.slowHead (next u.m.tx.wr))).1.shifting =
              u.shifting :=
          rfl
        simp only [Usart.weight, committed, udre, shifting]
        omega
      refine pays _ (.slowUcsrb none) rfl ?_
      rw [stays]
      exact Nat.le_refl _
  | slowUcsrb loaded =>
      rw [noWait rfl] at moves pays ⊢
      cases loaded with
      | none =>
          exact moves _ (.slowUcsrb (some (u.m.io .ucsr0b))) rfl
            (.moved u _ _ _ _ _ _ _) (Nat.le_refl _)
      | some ucsrb =>
          have udre :
              (u.writeStep c (.slowUcsrb (some ucsrb))).1.m.udre =
                u.m.udre :=
            IoFile.bit_store_other _ (by decide) _ _
          refine pays _ .slowRestore rfl ?_
          rw [Usart.weight, udre]
          exact Nat.le_refl _
  | slowRestore =>
      rw [noWait rfl] at moves ⊢
      exact moves _ .ret rfl (.moved u _ _ _ _ _ _ _) (Nat.le_refl _)
  | ret =>
      rw [noWait rfl]
      refine potential_of_same (.moved u _ _ _ _ _ _ _) rfl ?_
      rw [here]
      exact Nat.le_refl _

end Write

/-- Methods that only read, and the end of `end()`, come nearer to theirs. -/
theorem pays_readingStep
    {u : Usart}
    (inside : u.inMethod = true)
    (reading : u.location.reading = true) :
    u.runStep.1.potential + (if u.waits then 0 else 1) ≤ u.potential := by
  have moves :=
    fun (after : Usart) same sregI =>
      @potential_of_same u after (if u.waits then 0 else 1) same sregI
  cases location : u.location with
  | client =>
      rw [inMethod, location] at inside
      contradiction
  | code opening todo loaded | flush ending position
  | write c position =>
      rw [location] at reading
      contradiction
  | readTail head | peekTail head =>
      simp only [runStep, location, readStep, peekStep]
      split <;>
        refine moves _ (.moved u _ _ _ _ _ _ _) rfl ?_ <;>
        rw [waits, location] <;>
        simp [methodCost]
  | _ =>
      simp only [runStep, location]
      refine moves _ (.moved u _ _ _ _ _ _ _) rfl ?_
      rw [waits, location]
      exact Nat.le_refl _

/-- One step of the method that runs comes nearer to its end, or waits. -/
theorem pays_runStep
    {u : Usart}
    (ok : u.TxOk)
    (inside : u.inMethod = true) :
    u.runStep.1.potential + (if u.waits then 0 else 1) ≤ u.potential := by
  cases here : u.location with
  | code opening todo loaded =>
      have waits : u.waits = false := by rw [Usart.waits, here]
      rw [runStep, here, waits]
      exact pays_codeStep ok here
  | flush ending position =>
      rw [runStep, here]
      exact pays_flushStep ok here
  | write c position =>
      rw [runStep, here]
      exact pays_writeStep ok here
  | _ =>
      exact pays_readingStep inside (by rw [here]; rfl)

/-! ## Handlers and hardware -/

/-- What the transmitter does makes a running method dearer by a little. -/
theorem methodCost_le
    {before after : Usart}
    (location : At) :
    after.methodCost location ≤ before.methodCost location + 7 := by
  cases location with
  | flush ending position =>
      have most := after.flushCost_le position
      have least := before.flushCost_pos position
      simp only [methodCost]
      omega
  | write c position =>
      by_cases spins : position.spins = true
      · have most := (@spinCost_bounds after _ spins).2
        have least := (@spinCost_bounds before _ spins).1
        simp only [methodCost]
        omega
      · cases position with
        | spin i | spinSreg i | spinUdre i =>
            contradiction
        | fastUcsra loaded | slowUcsrb loaded =>
            cases loaded <;> exact Nat.le_add_right _ _
        | _ =>
            exact Nat.le_add_right _ _
  | _ =>
      exact Nat.le_add_right _ _

/-- The transmit interrupt. -/
theorem pays_dataRegisterEmpty
    {u : Usart}
    (ok : u.TxOk)
    (enabled : u.m.sregI = true)
    (udrie : u.m.udrie = true)
    (udre : u.m.udre = true) :
    (u.absorb (u.m.interrupt Machine.txUdrEmptyIrq)).potential + 1 ≤
      u.potential := by
  obtain ⟨notEnabling, _⟩ := notEnabling_of_enabled ok.flag enabled
  have nonempty : ¬ u.m.tx.Empty := (ok.udrie notEnabling).mp udrie
  have transmits :
      Transmits u (u.absorb (u.m.interrupt Machine.txUdrEmptyIrq)) :=
    transmits_txUdrEmptyIrq udrie rfl rfl rfl rfl
  exact pays_poll nonempty udre transmits (methodCost_le _) false

/-- A step of the hardware that lets a waiting method go on, or not. -/
theorem methodCost_anti
    {before after : Usart}
    (tx : after.m.tx = before.m.tx)
    (udrie : after.m.udrie = before.m.udrie)
    (sent : before.allSent = true → after.allSent = true)
    (poll : before.canPoll = true → after.canPoll = true)
    (location : At) :
    after.methodCost location ≤ before.methodCost location := by
  cases location with
  | flush ending position =>
      refine Nat.add_le_add_right ?_ _
      rw [flushCost, flushCost, udrie]
      cases polled : before.m.udrie with
      | true =>
          have notSent :
              before.allSent = false ∧ after.allSent = false := by
            simp [allSent, udrie, polled]
          rw [notSent.1, notSent.2]
          cases ready : before.canPoll with
          | true =>
              rw [poll ready]
          | false =>
              cases after.canPoll <;> cases position <;> decide
      | false =>
          cases all : before.allSent with
          | true =>
              rw [sent all]
              exact Nat.le_refl _
          | false =>
              cases after.allSent <;> cases position <;>
                simp [FlushAt.inLoop, exitCost]
  | write c position =>
      cases position with
      | spin i | spinSreg i | spinUdre i =>
          rw [methodCost, methodCost, writeCost, writeCost, tx]
          split
          · exact Nat.le_refl _
          · cases ready : before.canPoll with
            | true =>
                rw [poll ready]
            | false =>
                split <;> decide
      | fastUcsra loaded | slowUcsrb loaded =>
          cases loaded <;> exact Nat.le_refl _
      | _ =>
          exact Nat.le_refl _
  | _ =>
      exact Nat.le_refl _

theorem potential_of_lighter
    {before after : Usart}
    (location : after.location = before.location)
    (lighter : after.weight + 1 = before.weight)
    (cheaper :
      after.methodCost before.location ≤
        before.methodCost before.location) :
    after.potential + 1 ≤ before.potential := by
  rw [potential, potential, location]
  omega

/-- UDR0 moves on to the shift register. -/
theorem pays_load
    {u : Usart}
    (free : u.shifting = none)
    (udre : u.m.udre = false) :
    ({ u.absorb ({ u.m with io := u.m.io.force .ucsr0a udre0 true }, [])
        with shifting := some u.udr } : Usart).potential + 1 ≤
      u.potential := by
  have freed : (u.m.io.force .ucsr0a udre0 true).bit .ucsr0a udre0 = true :=
    IoFile.bit_force_same _ _ (by decide) _
  have sameUdrie :
      (u.m.io.force .ucsr0a udre0 true).bit .ucsr0b udrie0 = u.m.udrie :=
    IoFile.bit_force_other _ (by decide) _ _ _
  have sameTxc :
      (u.m.io.force .ucsr0a udre0 true).bit .ucsr0a txc0 = u.txc :=
    IoFile.bit_force_bit _ _ _ (by decide) _
  have cheaper :=
    @methodCost_anti u
      { u.absorb ({ u.m with io := u.m.io.force .ucsr0a udre0 true }, [])
        with shifting := some u.udr }
      rfl sameUdrie
      (fun sent => by
        rw [allSent, ← sameUdrie, ← sameTxc] at sent
        exact sent)
      (fun ready => by
        rw [canPoll, udre] at ready
        simp at ready)
      u.location
  have lighter :
      ({ u.absorb ({ u.m with io := u.m.io.force .ucsr0a udre0 true }, [])
          with shifting := some u.udr } : Usart).weight + 1 = u.weight := by
    simp only [weight, Machine.udre, absorb, freed, free]
    simp [show u.m.io.bit .ucsr0a udre0 = false from udre]
  exact potential_of_lighter rfl lighter cheaper

/-- A frame is out. -/
theorem pays_finish
    {u : Usart}
    {b : Byte}
    {io : IoFile}
    (busy : u.shifting = some b)
    (udre : io.bit .ucsr0a udre0 = u.m.udre)
    (udrie : io.bit .ucsr0b udrie0 = u.m.udrie)
    (txc : u.txc = true → io.bit .ucsr0a txc0 = true) :
    ({ u with m := { u.m with io := io }, shifting := none } :
        Usart).potential + 1 ≤ u.potential := by
  have cheaper :=
    @methodCost_anti u
      { u with m := { u.m with io := io }, shifting := none } rfl udrie
      (fun sent => by
        rw [allSent, Bool.and_eq_true] at sent ⊢
        exact ⟨(congrArg (!·) udrie).trans sent.1, txc sent.2⟩)
      (fun ready => by
        rw [canPoll, Machine.udre] at ready ⊢
        rw [udre]
        exact ready)
      u.location
  have lighter :
      ({ u with m := { u.m with io := io }, shifting := none } :
          Usart).weight + 1 = u.weight := by
    simp only [weight, Machine.udre, udre, busy]
    rfl
  exact potential_of_lighter rfl lighter cheaper

/-- Every step but the client's pays, unless it is a wait or a reception. -/
theorem pays
    {u : Usart}
    {action : Action}
    {result : Usart × List Event}
    (ok : u.TxOk)
    (system : action.isClient = false)
    (stepped : u.step? action = some result) :
    result.1.potential + (if u.counted action then 1 else 0) ≤
      u.potential := by
  cases step?_inversion stepped with
  | call | setFlag =>
      contradiction
  | run inside =>
      have share :
          (if u.counted .run then 1 else 0) = if u.waits then 0 else 1 := by
        rw [counted]
        cases u.waits <;> rfl
      rw [share]
      exact pays_runStep ok inside
  | dataRegisterEmpty enabled udrie udre =>
      exact pays_dataRegisterEmpty ok enabled udrie udre
  | usartReceive enabled rxcie c parityError result handled =>
      subst handled
      obtain ⟨same, sregI, _⟩ :=
        sameTx_usartReceive u c parityError enabled
      exact potential_of_same same sregI (Nat.le_refl _)
  | load txen free udre =>
      exact pays_load free udre
  | finishLast b busy udre outside =>
      exact pays_finish busy
        (IoFile.bit_force_bit _ _ _ (by decide) _)
        (IoFile.bit_force_other _ (by decide) _ _ _)
        (fun _ => IoFile.bit_force_same _ _ (by decide) _)
  | finishNext b busy udre =>
      exact pays_finish busy rfl rfl id

end Usart

end KeyboardEmulator
