import KeyboardEmulator.LedCalls
import Mathlib.Data.Fintype.Basic
import Mathlib.Logic.Function.Basic

namespace KeyboardEmulator

/-!
# Pins shared with interrupt handlers

A program calls `pinMode`, `digitalWrite` and `digitalRead`, and so do its
interrupt handlers, on any pins and between any two accesses of the program that
an interrupt can come between.  A pin is two bits of registers that it shares
with others.  Every store to these registers is in a section that no interrupt
comes into, so these bits are what the calls make of them one after the other.
The store that disconnects a pin from its timer comes before the section, and is
left aside here.
-/

/-! ## Pins -/

/-- What the two register bits of a pin say. -/
structure PinState where
  output : Bool
  latch : Bool
  deriving Repr, DecidableEq

/-- One store to a register bit of a pin. -/
inductive PinOp where
  | direction (pin : Pin) (output : Bool)
  | latch (pin : Pin) (level : Bool)
  deriving Repr, DecidableEq

def PinOp.pin : PinOp → Pin
  | .direction pin _ | .latch pin _ => pin

def PinOp.apply (pins : Pin → PinState) : PinOp → Pin → PinState
  | .direction pin output =>
      Function.update pins pin { pins pin with output := output }
  | .latch pin level =>
      Function.update pins pin { pins pin with latch := level }

/-- The number of a pin's bit in its registers. -/
def pinBit (pin : Pin) : Nat :=
  digitalPinToPcmskBit pin

/-- `*portModeRegister(digitalPinToPort(pin))`. -/
def modeReg (pin : Pin) : Reg :=
  if pin.val ≤ 7 then .ddrD else if pin.val ≤ 13 then .ddrB else .ddrC

/-- `*portOutputRegister(digitalPinToPort(pin))`. -/
def outputReg (pin : Pin) : Reg :=
  if pin.val ≤ 7 then .portD else if pin.val ≤ 13 then .portB else .portC

/-- What the registers say of the pins. -/
def IoFile.pins (io : IoFile) (pin : Pin) : PinState where
  output := io.bit (modeReg pin) (pinBit pin)
  latch := io.bit (outputReg pin) (pinBit pin)

theorem portModeRegister_pin (pin : Pin) :
    portModeRegister (digitalPinToPort pin) = some (modeReg pin) := by
  revert pin
  decide

theorem portOutputRegister_pin (pin : Pin) :
    portOutputRegister (digitalPinToPort pin) = some (outputReg pin) := by
  revert pin
  decide

theorem digitalPinToBitMask_pin (pin : Pin) :
    digitalPinToBitMask pin = bv (pinBit pin) := by
  revert pin
  decide

theorem pinBit_lt (pin : Pin) : pinBit pin < 8 := by
  revert pin
  decide

/-- No two pins share a bit. -/
theorem modeReg_injective
    {pin other : Pin}
    (sameReg : modeReg other = modeReg pin)
    (sameBit : pinBit other = pinBit pin) :
    other = pin := by
  revert pin other
  decide +kernel

theorem outputReg_injective
    {pin other : Pin}
    (sameReg : outputReg other = outputReg pin)
    (sameBit : pinBit other = pinBit pin) :
    other = pin := by
  revert pin other
  decide +kernel

theorem modeReg_ne_outputReg (pin other : Pin) :
    modeReg pin ≠ outputReg other := by
  revert pin other
  decide +kernel

theorem isGpio_pin (pin : Pin) :
    (modeReg pin).isGpio = true ∧ (outputReg pin).isGpio = true := by
  revert pin
  decide

/-! ## The stores -/

/-- `*reg |= bit` or `*reg &= ~bit`. -/
def setBit (reg : Reg) (pin : Pin) (level : Bool) : Access :=
  if level then orMask reg (bv (pinBit pin))
  else andNotMask reg (bv (pinBit pin))

/-- The access that makes a store. -/
def PinOp.access : PinOp → Access
  | .direction pin output => setBit (modeReg pin) pin output
  | .latch pin level => setBit (outputReg pin) pin level

/-- What a read-modify-write of one bit stores. -/
theorem bit_store_setBit
    (io : IoFile)
    {reg : Reg}
    (plain : reg ≠ .ucsr0a)
    (pin : Pin)
    (level : Bool)
    (query : Reg)
    {b : Nat}
    (inside : b < 8) :
    (io.execute [setBit reg pin level]).bit query b =
      if query = reg ∧ b = pinBit pin then level else io.bit query b := by
  by_cases same : query = reg
  · subst same
    cases level with
    | false =>
        change
          (io.store query
            ((io query &&& ~~~bv (pinBit pin)) ||| 0)).bit query b = _
        rw [IoFile.bit_store_same _ plain, BitVec.getLsbD_or,
          BitVec.getLsbD_and, BitVec.getLsbD_not, getLsbD_bv]
        by_cases here : b = pinBit pin <;> simp [here, inside, IoFile.bit]
    | true =>
        change
          (io.store query
            ((io query &&& ~~~0) ||| bv (pinBit pin))).bit query b = _
        rw [IoFile.bit_store_same _ plain, BitVec.getLsbD_or,
          BitVec.getLsbD_and, BitVec.getLsbD_not, getLsbD_bv]
        by_cases here : b = pinBit pin <;>
          simp [here, inside, IoFile.bit, pinBit_lt]
  · rw [if_neg (fun both => same both.1)]
    cases level <;> exact IoFile.bit_store_other _ same _ _

/-- A store does to the pins what it should. -/
theorem pins_execute_access
    (io : IoFile)
    (op : PinOp) :
    (io.execute [op.access]).pins = op.apply io.pins := by
  funext query
  cases op with
  | direction pin output =>
      have bits :=
        fun reg =>
          @bit_store_setBit io _
            (Reg.plain_of_isGpio (isGpio_pin pin).1).1 pin output reg
            (pinBit query) (pinBit_lt query)
      have sameLatch := (bits (outputReg query)).trans
        (if_neg (fun both => modeReg_ne_outputReg pin query both.1.symm))
      rw [PinOp.access, IoFile.pins, bits (modeReg query), sameLatch,
        PinOp.apply, Function.update_apply]
      by_cases same : query = pin
      · rw [if_pos same, if_pos (by rw [same]; exact ⟨rfl, rfl⟩), same]
        rfl
      · rw [if_neg same,
          if_neg (fun both => same (modeReg_injective both.1 both.2))]
        rfl
  | latch pin level =>
      have bits :=
        fun reg =>
          @bit_store_setBit io _
            (Reg.plain_of_isGpio (isGpio_pin pin).2).1 pin level reg
            (pinBit query) (pinBit_lt query)
      have sameMode := (bits (modeReg query)).trans
        (if_neg (fun both => modeReg_ne_outputReg query pin both.1))
      rw [PinOp.access, IoFile.pins, bits (outputReg query), sameMode,
        PinOp.apply, Function.update_apply]
      by_cases same : query = pin
      · rw [if_pos same, if_pos (by rw [same]; exact ⟨rfl, rfl⟩), same]
        rfl
      · rw [if_neg same,
          if_neg (fun both => same (outputReg_injective both.1 both.2))]
        rfl

/-- Every store to a pin there is. -/
def pinOps : List PinOp :=
  (List.finRange 20).flatMap
    (fun pin =>
      [.direction pin false, .direction pin true,
        .latch pin false, .latch pin true])

/-- The store to a pin that an access makes, if it makes one. -/
def Access.op? (access : Access) : Option PinOp :=
  pinOps.find? (fun op => op.access == access)

theorem op?_access (op : PinOp) :
    op.access.op? = some op := by
  cases op with
  | direction pin output =>
      revert pin output
      decide +kernel
  | latch pin level =>
      revert pin level
      decide +kernel

/-! ## The calls -/

inductive PinCall where
  | pinMode (pin : Pin) (mode : BitVec 8)
  | digitalWrite (pin : Pin) (val : BitVec 8)
  | digitalRead (pin : Pin)
  deriving Repr, DecidableEq

namespace PinCall

/-- The accesses of a call, but for the read of `digitalRead` at its end. -/
def code : PinCall → List Access
  | .pinMode pin mode =>
      KeyboardEmulator.pinMode pin mode
  | .digitalWrite pin val =>
      KeyboardEmulator.digitalWrite pin val
  | .digitalRead pin =>
      let timer := digitalPinToTimer pin
      if timer ≠ .notOnTimer then turnOffPwm timer else []

/-- The pin that it goes on to read. -/
def reads? : PinCall → Option Pin
  | .digitalRead pin => some pin
  | _ => none

/-- The stores of a call to its pin. -/
def ops : PinCall → List PinOp
  | .pinMode pin mode =>
      if mode = input then [.direction pin false, .latch pin false]
      else if mode = inputPullup then
        [.direction pin false, .latch pin true]
      else [.direction pin true]
  | .digitalWrite pin val => [.latch pin (val != low)]
  | .digitalRead _ => []

/-- The accesses of a call before its section. -/
def pwmCode : PinCall → List Access
  | .pinMode _ _ => []
  | .digitalWrite pin _ | .digitalRead pin =>
      if digitalPinToTimer pin ≠ .notOnTimer then
        turnOffPwm (digitalPinToTimer pin)
      else []

/-- The section with the stores, where there are any. -/
def storeCode : List PinOp → List Access
  | [] => []
  | op :: rest => guarded ((op :: rest).map PinOp.access)

/-- A call turns the compare output off, and then stores in one section. -/
theorem code_eq (call : PinCall) :
    call.code = call.pwmCode ++ storeCode call.ops := by
  cases call with
  | pinMode pin mode =>
      simp only [code, KeyboardEmulator.pinMode, portModeRegister_pin,
        portOutputRegister_pin, digitalPinToBitMask_pin, ops, pwmCode,
        List.nil_append]
      split
      · rfl
      · split <;> rfl
  | digitalWrite pin val =>
      simp only [code, KeyboardEmulator.digitalWrite, portOutputRegister_pin,
        digitalPinToBitMask_pin, ops, pwmCode]
      by_cases isLow : val = low
      · rw [isLow]
        rfl
      · have set : (val != low) = true := by
          simpa using isLow
        rw [set, if_neg isLow]
        rfl
  | digitalRead pin =>
      exact (List.append_nil _).symm

/-- A call that stores does not read. -/
theorem reads?_of_ops
    {call : PinCall}
    (stores : call.ops ≠ []) :
    call.reads? = none := by
  cases call with
  | digitalRead pin =>
      exact absurd rfl stores
  | _ =>
      rfl

end PinCall

/-- An access that leaves all pins alone. -/
def Access.offPins : Access → Bool
  | .modify reg _ _ => !reg.isGpio
  | _ => false

theorem offPins_pwmCode (call : PinCall) :
    ∀ access ∈ call.pwmCode, access.offPins = true := by
  have everyTimer :
      ∀ timer, ∀ access ∈ turnOffPwm timer, access.offPins = true := by
    intro timer
    cases timer <;> decide
  cases call with
  | pinMode pin mode =>
      simp [PinCall.pwmCode]
  | digitalWrite pin val | digitalRead pin =>
      rw [PinCall.pwmCode]
      split
      · exact everyTimer _
      · simp

theorem op?_offPins
    {access : Access}
    (offPins : access.offPins = true) :
    access.op? = none := by
  refine List.find?_eq_none.mpr (fun op _ => ?_)
  cases access with
  | modify reg keep set =>
      have notGpio : reg.isGpio = false := by
        simpa [Access.offPins] using offPins
      intro same
      rw [beq_iff_eq] at same
      cases op with
      | direction pin level =>
          cases level <;> cases same <;>
            exact Bool.false_ne_true (notGpio.symm.trans (isGpio_pin pin).1)
      | latch pin level =>
          cases level <;> cases same <;>
            exact Bool.false_ne_true (notGpio.symm.trans (isGpio_pin pin).2)
  | _ =>
      contradiction

theorem pins_store_offPins
    (io : IoFile)
    {reg : Reg}
    (offPins : reg.isGpio = false)
    (value : BitVec 8) :
    (io.store reg value).pins = io.pins := by
  funext pin
  obtain ⟨modeGpio, outputGpio⟩ := isGpio_pin pin
  have notMode : modeReg pin ≠ reg := by
    rintro rfl
    exact Bool.false_ne_true (offPins.symm.trans modeGpio)
  have notOutput : outputReg pin ≠ reg := by
    rintro rfl
    exact Bool.false_ne_true (offPins.symm.trans outputGpio)
  rw [IoFile.pins, IoFile.bit_store_other io notMode,
    IoFile.bit_store_other io notOutput, IoFile.pins]

/-! ## Code that runs without an interrupt in between -/

theorem execute_append
    (io : IoFile)
    (first second : List Access) :
    io.execute (first ++ second) = (io.execute first).execute second := by
  induction first generalizing io with
  | nil =>
      rfl
  | cons access rest inductionHypothesis =>
      cases access <;> exact inductionHypothesis _

theorem pins_execute_offPins
    (io : IoFile)
    {todo : List Access}
    (offPins : ∀ access ∈ todo, access.offPins = true) :
    (io.execute todo).pins = io.pins := by
  induction todo generalizing io with
  | nil =>
      rfl
  | cons access rest inductionHypothesis =>
      obtain ⟨here, later⟩ := List.forall_mem_cons.mp offPins
      cases access with
      | modify reg keep set =>
          have notGpio : reg.isGpio = false := by
            simpa [Access.offPins] using here
          rw [IoFile.execute, inductionHypothesis _ later,
            pins_store_offPins io notGpio]
      | _ =>
          contradiction

theorem pins_execute_accesses
    (io : IoFile)
    (ops : List PinOp) :
    (io.execute (ops.map PinOp.access)).pins = ops.foldl PinOp.apply io.pins := by
  induction ops generalizing io with
  | nil =>
      rfl
  | cons op rest inductionHypothesis =>
      have first :
          io.execute ((op :: rest).map PinOp.access) =
            (io.execute [op.access]).execute (rest.map PinOp.access) :=
        execute_append io [op.access] (rest.map PinOp.access)
      rw [first, inductionHypothesis, pins_execute_access, List.foldl_cons]

/-- Without an interrupt, calls do to the pins what they should. -/
theorem pins_execute_calls
    (io : IoFile)
    (calls : List PinCall) :
    (io.execute (calls.flatMap PinCall.code)).pins =
      (calls.flatMap PinCall.ops).foldl PinOp.apply io.pins := by
  induction calls generalizing io with
  | nil =>
      rfl
  | cons call rest inductionHypothesis =>
      have stores :
          ((io.execute call.pwmCode).execute
            (PinCall.storeCode call.ops)).pins =
            call.ops.foldl PinOp.apply io.pins := by
        rw [← pins_execute_offPins io (offPins_pwmCode call)]
        cases call.ops with
        | nil =>
            rfl
        | cons op others =>
            rw [PinCall.storeCode, guarded, execute_append, execute_append]
            exact pins_execute_accesses _ (op :: others)
      rw [List.flatMap_cons, List.flatMap_cons, execute_append,
        inductionHypothesis, PinCall.code_eq, execute_append, stores,
        List.foldl_append]

/-! ## The system -/

/-- A board whose program and whose interrupt handlers call for pins. -/
structure PinBoard where
  /-- the I bit of `SREG` -/
  sregI : Bool
  io : IoFile
  /-- `oldSREG` of the call the program is in -/
  oldSreg : Bool
  /-- what is left of this call -/
  todo : List Access
  /-- the register value between the halves of a read-modify-write -/
  loaded : Option (BitVec 8)
  /-- the pin that the call goes on to read -/
  reading : Option Pin

namespace PinBoard

inductive Action where
  /-- the program calls -/
  | call (call : PinCall)
  /-- `interrupts()` or `noInterrupts()` -/
  | setInterrupts (enabled : Bool)
  /-- one access of the call -/
  | run
  /-- `digitalRead` reads its pin, which shows this level -/
  | read (level : Bool)
  /-- a handler that calls these -/
  | handler (calls : List PinCall)
  deriving Repr, DecidableEq

inductive Event where
  | byProgram (op : PinOp)
  | byHandler (op : PinOp)
  | hasRead (pin : Pin) (level : Bool)
  deriving Repr, DecidableEq

/-- The program is between two calls. -/
def idle (s : PinBoard) : Bool :=
  s.todo.isEmpty && s.reading.isNone

/-- The effect of one access, a load apart. -/
def perform (s : PinBoard) (loaded : BitVec 8) : Access → PinBoard
  | .saveSreg =>
      { s with oldSreg := s.sregI }
  | .cli =>
      { s with sregI := false }
  | .restoreSreg =>
      { s with sregI := s.oldSreg }
  | .modify reg keep set =>
      { s with io := s.io.store reg ((loaded &&& keep) ||| set) }
  | _ =>
      s

/-- One access of the call; a read-modify-write takes two. -/
def runStep (s : PinBoard) : Option (PinBoard × List Event) :=
  match s.todo, s.loaded with
  | [], _ =>
      none
  | .modify reg _ _ :: _, none =>
      some ({ s with loaded := some (s.io reg) }, [])
  | access :: rest, held =>
      some
        ({ s.perform (held.getD 0) access with todo := rest, loaded := none },
          access.op?.toList.map .byProgram)

/-- One step of the system; `none` when the action is not enabled. -/
def step? (s : PinBoard) : Action → Option (PinBoard × List Event)
  | .call call =>
      if s.idle then
        some
          ({ s with
              todo := call.code
              loaded := none
              reading := call.reads? }, [])
      else
        none
  | .setInterrupts enabled =>
      if s.idle then some ({ s with sregI := enabled }, []) else none
  | .run =>
      s.runStep
  | .read level =>
      match s.todo, s.reading with
      | [], some pin =>
          -- an output shows what the program wrote to it
          if (s.io.pins pin).output = true ∧ level ≠ (s.io.pins pin).latch then
            none
          else
            some ({ s with reading := none }, [.hasRead pin level])
      | _, _ =>
          none
  | .handler calls =>
      -- the I flag is clear while a handler runs, and set again by `reti`
      if s.sregI then
        some
          ({ s with io := s.io.execute (calls.flatMap PinCall.code) },
            (calls.flatMap PinCall.ops).map .byHandler)
      else
        none

abbrev run? : PinBoard → List Action → Option (PinBoard × List Event) :=
  LabelledRun.run? step?

/-! ## What a run does -/

/-- Who makes a call. -/
inductive Doer where
  | program
  | handler
  deriving Repr, DecidableEq

/-- A store to a pin, or the read of one. -/
inductive Deed where
  | store (op : PinOp)
  | read (pin : Pin)
  deriving Repr, DecidableEq

def Deed.op? : Deed → Option PinOp
  | .store op => some op
  | .read _ => none

/-- What a call of the program does to its pin. -/
def programDeeds (call : PinCall) : List Deed :=
  call.ops.map .store ++ call.reads?.toList.map .read

/-- What a call does to the pins; what a handler reads does not show. -/
def deeds : Doer × PinCall → List (Doer × Deed)
  | (.program, call) =>
      (programDeeds call).map (Prod.mk Doer.program)
  | (.handler, call) =>
      (call.ops.map Deed.store).map (Prod.mk Doer.handler)

/-- Who did what. -/
def Event.deed : Event → Doer × Deed
  | .byProgram op => (.program, .store op)
  | .byHandler op => (.handler, .store op)
  | .hasRead pin _ => (.program, .read pin)

def Event.op? : Event → Option PinOp
  | .byProgram op | .byHandler op => some op
  | .hasRead _ _ => none

/-- The calls that one of the two makes. -/
def callsBy (doer : Doer) (calls : List (Doer × PinCall)) : List PinCall :=
  calls.filterMap (fun call => if call.1 = doer then some call.2 else none)

/-- The calls that an action makes. -/
def Action.calls : Action → List (Doer × PinCall)
  | .call made => [(.program, made)]
  | .handler made => made.map (Prod.mk Doer.handler)
  | .setInterrupts _ | .run | .read _ => []

/-- The I flag outside of sections, after an action. -/
def Action.flag (enabled : Bool) : Action → Bool
  | .setInterrupts now => now
  | _ => enabled

/-- Where the program is, and what it has done in the call it is in. -/
inductive At (s : PinBoard) (enabled : Bool) :
    Option PinCall → List PinOp → Prop where
  | idle
      (todo : s.todo = [])
      (reading : s.reading = none)
      (flag : s.sregI = enabled) :
      At s enabled none []
  | outside
      {call : PinCall}
      {pwm : List Access}
      (todo : s.todo = pwm ++ PinCall.storeCode call.ops)
      (offPins : ∀ access ∈ pwm, access.offPins = true)
      (reading : s.reading = call.reads?)
      (flag : s.sregI = enabled) :
      At s enabled (some call) []
  | entering
      {call : PinCall}
      (todo : s.todo = .cli :: call.ops.map PinOp.access ++ [.restoreSreg])
      (reading : s.reading = none)
      (reads : call.reads? = none)
      (flag : s.sregI = enabled)
      (saved : s.oldSreg = enabled) :
      At s enabled (some call) []
  | inside
      {call : PinCall}
      {past rest : List PinOp}
      (ops : call.ops = past ++ rest)
      (todo : s.todo = rest.map PinOp.access ++ [.restoreSreg])
      (current : LoadedCurrent s.io s.todo s.loaded)
      (reading : s.reading = none)
      (reads : call.reads? = none)
      (flag : s.sregI = false)
      (saved : s.oldSreg = enabled) :
      At s enabled (some call) past

/--
The calls that were made up to now, in the order in which they took effect, and
those of the program but one have done all they should.
-/
structure Linearizes
    (start s : PinBoard)
    (enabled : Bool)
    (calls : List (Doer × PinCall))
    (past : List Event) : Prop where
  pins : s.io.pins = (past.filterMap Event.op?).foldl PinOp.apply start.io.pins
  order :
    ∃ order current done,
      past.map Event.deed =
          order.flatMap deeds ++ done.map (fun op => (.program, .store op)) ∧
        callsBy .program calls = callsBy .program order ++ current.toList ∧
          callsBy .handler calls = callsBy .handler order ∧
            At s enabled current done

variable {s next : PinBoard} {enabled : Bool}

theorem access_eq_modify (op : PinOp) :
    ∃ reg keep set, op.access = .modify reg keep set := by
  cases op with
  | direction pin output =>
      cases output <;> exact ⟨_, _, _, rfl⟩
  | latch pin level =>
      cases level <;> exact ⟨_, _, _, rfl⟩

/-- What an access of the program does, and where it leads. -/
inductive Ran
    (s : PinBoard)
    (enabled : Bool) :
    Option PinCall → List PinOp → PinBoard × List Event → Prop where
  | quiet
      {current : Option PinCall}
      {done : List PinOp}
      {next : PinBoard}
      (pins : next.io.pins = s.io.pins)
      (located : At next enabled current done) :
      Ran s enabled current done (next, [])
  | stores
      {current : Option PinCall}
      {done : List PinOp}
      {next : PinBoard}
      (op : PinOp)
      (pins : next.io.pins = op.apply s.io.pins)
      (located : At next enabled current (done ++ [op])) :
      Ran s enabled current done (next, [.byProgram op])
  | returns
      {call : PinCall}
      {next : PinBoard}
      (reads : call.reads? = none)
      (pins : next.io.pins = s.io.pins)
      (located : At next enabled none []) :
      Ran s enabled (some call) call.ops (next, [])

theorem runStep_load
    {reg : Reg}
    {keep set : BitVec 8}
    {rest : List Access}
    (todo : s.todo = .modify reg keep set :: rest)
    (loaded : s.loaded = none) :
    s.runStep = some ({ s with loaded := some (s.io reg) }, []) := by
  rw [PinBoard.runStep, todo, loaded]

theorem runStep_store
    {reg : Reg}
    {keep set value : BitVec 8}
    {rest : List Access}
    (todo : s.todo = .modify reg keep set :: rest)
    (loaded : s.loaded = some value) :
    s.runStep =
      some
        ({ s with
            io := s.io.store reg ((value &&& keep) ||| set)
            todo := rest
            loaded := none },
          (Access.modify reg keep set).op?.toList.map .byProgram) := by
  rw [PinBoard.runStep, todo, loaded]
  rfl

/-- Before the section the program may be preempted, but leaves pins alone. -/
theorem Ran.outside
    {call : PinCall}
    {access : Access}
    {rest : List Access}
    {result : PinBoard × List Event}
    (todo : s.todo = access :: rest ++ PinCall.storeCode call.ops)
    (offPins : ∀ other ∈ access :: rest, other.offPins = true)
    (reading : s.reading = call.reads?)
    (flag : s.sregI = enabled)
    (stepped : s.runStep = some result) :
    Ran s enabled (some call) [] result := by
  obtain ⟨here, later⟩ := List.forall_mem_cons.mp offPins
  cases access with
  | modify reg keep set =>
      have notGpio : reg.isGpio = false := by
        simpa [Access.offPins] using here
      cases loaded : s.loaded with
      | none =>
          rw [runStep_load todo loaded] at stepped
          obtain rfl := Option.some.inj stepped
          exact .quiet rfl (.outside todo offPins reading flag)
      | some value =>
          rw [runStep_store todo loaded, op?_offPins here] at stepped
          obtain rfl := Option.some.inj stepped
          exact .quiet (pins_store_offPins _ notGpio _)
            (.outside rfl later reading flag)
  | _ =>
      contradiction

/-- Inside the section nothing comes between the halves of a store. -/
theorem Ran.inside
    {call : PinCall}
    {past rest : List PinOp}
    {op : PinOp}
    {result : PinBoard × List Event}
    (ops : call.ops = past ++ op :: rest)
    (todo : s.todo = (op :: rest).map PinOp.access ++ [.restoreSreg])
    (current : LoadedCurrent s.io s.todo s.loaded)
    (reading : s.reading = none)
    (reads : call.reads? = none)
    (flag : s.sregI = false)
    (saved : s.oldSreg = enabled)
    (stepped : s.runStep = some result) :
    Ran s enabled (some call) past result := by
  obtain ⟨reg, keep, set, isModify⟩ := access_eq_modify op
  have first :
      s.todo =
        .modify reg keep set ::
          (rest.map PinOp.access ++ [.restoreSreg]) := by
    rw [todo, List.map_cons, isModify]
    rfl
  cases loaded : s.loaded with
  | none =>
      rw [runStep_load first loaded] at stepped
      obtain rfl := Option.some.inj stepped
      refine .quiet rfl
        (.inside ops todo (fun value isLoaded => ?_) reading reads flag saved)
      exact ⟨reg, keep, set, _, first, Option.some.inj isLoaded⟩
  | some value =>
      obtain ⟨reg', keep', set', rest', here, isCurrent⟩ := current value loaded
      rw [first] at here
      cases here
      have executed :
          s.io.store reg ((value &&& keep) ||| set) =
            s.io.execute [op.access] := by
        rw [isModify, ← isCurrent]
        rfl
      rw [runStep_store first loaded, ← isModify, op?_access,
        executed] at stepped
      obtain rfl := Option.some.inj stepped
      refine .stores op (pins_execute_access s.io op)
        (.inside ?_ rfl (fun value isLoaded => ?_) reading reads flag saved)
      · rw [ops, List.append_assoc, List.singleton_append]
      · contradiction

/-- One case for each kind of access. -/
theorem At.runStep
    {current : Option PinCall}
    {done : List PinOp}
    {result : PinBoard × List Event}
    (located : At s enabled current done)
    (stepped : s.runStep = some result) :
    Ran s enabled current done result := by
  cases located with
  | idle todo reading flag =>
      rw [PinBoard.runStep, todo] at stepped
      contradiction
  | @outside call pwm todo offPins reading flag =>
      cases pwm with
      | nil =>
          cases ops : call.ops with
          | nil =>
              rw [PinBoard.runStep, todo, ops] at stepped
              contradiction
          | cons op rest =>
              have noRead : call.reads? = none :=
                PinCall.reads?_of_ops (by simp [ops])
              rw [PinBoard.runStep, todo, ops] at stepped
              obtain rfl := Option.some.inj stepped
              refine .quiet rfl
                (.entering ?_ (reading.trans noRead) noRead flag flag)
              rw [ops]
              rfl
      | cons access rest =>
          exact .outside todo offPins reading flag stepped
  | @entering call todo reading reads flag saved =>
      rw [PinBoard.runStep, todo] at stepped
      obtain rfl := Option.some.inj stepped
      exact .quiet rfl
        (.inside (List.nil_append _).symm rfl
          (fun value isLoaded => absurd isLoaded (by simp))
          reading reads rfl saved)
  | @inside call past rest ops todo current reading reads flag saved =>
      cases rest with
      | nil =>
          rw [PinBoard.runStep, todo] at stepped
          obtain rfl := Option.some.inj stepped
          rw [List.append_nil] at ops
          rw [← ops]
          exact .returns reads rfl (.idle rfl reading saved)
      | cons op rest =>
          exact .inside ops todo current reading reads flag saved stepped

theorem callsBy_append
    (doer : Doer)
    (first second : List (Doer × PinCall)) :
    callsBy doer (first ++ second) =
      callsBy doer first ++ callsBy doer second :=
  List.filterMap_append

theorem callsBy_other
    {doer other : Doer}
    (different : other ≠ doer)
    (calls : List PinCall) :
    callsBy doer (calls.map (Prod.mk other)) = [] := by
  rw [callsBy, List.filterMap_map]
  exact List.filterMap_eq_nil_iff.mpr (fun call _ => if_neg different)

theorem idle_iff :
    s.idle = true ↔ s.todo = [] ∧ s.reading = none := by
  simp [idle]

/-- An idle program is in no call. -/
theorem At.of_idle
    {current : Option PinCall}
    {done : List PinOp}
    (located : At s enabled current done)
    (isIdle : s.idle = true) :
    current = none ∧ done = [] ∧ s.sregI = enabled := by
  obtain ⟨noTodo, noReading⟩ := idle_iff.mp isIdle
  cases located with
  | idle _ _ flag =>
      exact ⟨rfl, rfl, flag⟩
  | @outside call pwm todo offPins reading flag =>
      rw [noTodo] at todo
      rw [noReading] at reading
      obtain ⟨_, noStores⟩ := List.append_eq_nil_iff.mp todo.symm
      cases call with
      | pinMode pin mode =>
          rw [PinCall.ops] at noStores
          split at noStores
          · contradiction
          · split at noStores <;> contradiction
      | digitalWrite | digitalRead =>
          contradiction
  | entering todo | inside _ todo =>
      rw [noTodo] at todo
      simp at todo

/-- Where a handler can run, the program has stored nothing yet. -/
theorem At.handler
    {current : Option PinCall}
    {done : List PinOp}
    (located : At s enabled current done)
    (on : s.sregI = true)
    (io : IoFile) :
    done = [] ∧ At { s with io := io } enabled current [] := by
  cases located with
  | idle todo reading flag =>
      exact ⟨rfl, .idle todo reading flag⟩
  | outside todo offPins reading flag =>
      exact ⟨rfl, .outside todo offPins reading flag⟩
  | entering todo reading reads flag saved =>
      exact ⟨rfl, .entering todo reading reads flag saved⟩
  | inside _ _ _ _ _ flag =>
      rw [flag] at on
      contradiction

/-- Only `digitalRead` is left with a pin to read. -/
theorem At.read
    {current : Option PinCall}
    {done : List PinOp}
    {pin : Pin}
    (located : At s enabled current done)
    (reading : s.reading = some pin) :
    current = some (.digitalRead pin) ∧ done = [] ∧ s.sregI = enabled := by
  cases located with
  | idle _ noReading =>
      rw [reading] at noReading
      contradiction
  | @outside call _ _ _ reads flag =>
      rw [reading] at reads
      cases call with
      | digitalRead other =>
          cases reads
          exact ⟨rfl, rfl, flag⟩
      | _ =>
          contradiction
  | entering _ noReading | inside _ _ _ noReading =>
      rw [reading] at noReading
      contradiction

theorem Linearizes.call
    {start : PinBoard}
    {calls : List (Doer × PinCall)}
    {past : List Event}
    (linear : Linearizes start s enabled calls past)
    (isIdle : s.idle = true)
    (made : PinCall) :
    Linearizes start
      { s with todo := made.code, loaded := none, reading := made.reads? }
      enabled (calls ++ [(.program, made)]) past := by
  obtain ⟨pins, order, current, done, shown, byProgram, byHandler, located⟩ :=
    linear
  obtain ⟨rfl, rfl, flag⟩ := located.of_idle isIdle
  refine ⟨pins, order, some made, [], shown, ?_, ?_,
    .outside made.code_eq (offPins_pwmCode made) rfl flag⟩
  · rw [callsBy_append, byProgram, Option.toList_none, List.append_nil]
    rfl
  · rw [callsBy_append, byHandler]
    exact List.append_nil _

theorem Linearizes.runStep
    {start : PinBoard}
    {calls : List (Doer × PinCall)}
    {past : List Event}
    {result : PinBoard × List Event}
    (linear : Linearizes start s enabled calls past)
    (stepped : s.runStep = some result) :
    Linearizes start result.1 enabled calls (past ++ result.2) := by
  obtain ⟨pins, order, current, done, shown, byProgram, byHandler, located⟩ :=
    linear
  cases located.runStep stepped with
  | quiet samePins located =>
      rw [List.append_nil]
      exact ⟨samePins.trans pins, order, current, done, shown, byProgram,
        byHandler, located⟩
  | stores op stored located =>
      refine ⟨?_, order, current, done ++ [op], ?_, byProgram, byHandler,
        located⟩
      · rw [stored, pins, List.filterMap_append, List.foldl_append]
        rfl
      · rw [List.map_append, shown, List.map_append, List.append_assoc]
        rfl
  | @returns call _ reads samePins returned =>
      rw [List.append_nil]
      refine ⟨samePins.trans pins, order ++ [(.program, call)], none, [], ?_,
        ?_, ?_, returned⟩
      · rw [shown, List.flatMap_append, List.flatMap_singleton, deeds,
          programDeeds, reads]
        simp
      · rw [byProgram, callsBy_append, Option.toList_none, List.append_nil]
        rfl
      · rw [byHandler, callsBy_append]
        exact (List.append_nil _).symm

theorem Linearizes.read
    {start : PinBoard}
    {calls : List (Doer × PinCall)}
    {past : List Event}
    {pin : Pin}
    (linear : Linearizes start s enabled calls past)
    (todo : s.todo = [])
    (reading : s.reading = some pin)
    (level : Bool) :
    Linearizes start { s with reading := none } enabled calls
      (past ++ [.hasRead pin level]) := by
  obtain ⟨pins, order, current, done, shown, byProgram, byHandler, located⟩ :=
    linear
  obtain ⟨rfl, rfl, flag⟩ := located.read reading
  refine ⟨?_, order ++ [(.program, .digitalRead pin)], none, [], ?_, ?_, ?_,
    .idle todo rfl flag⟩
  · rw [pins, List.filterMap_append]
    exact congrArg (List.foldl _ _) (List.append_nil _).symm
  · rw [List.map_append, shown, List.flatMap_append]
    simp [deeds, programDeeds, PinCall.ops, PinCall.reads?, Event.deed]
  · rw [byProgram, callsBy_append, Option.toList_none, List.append_nil]
    rfl
  · rw [byHandler, callsBy_append]
    exact (List.append_nil _).symm

theorem Linearizes.handler
    {start : PinBoard}
    {calls : List (Doer × PinCall)}
    {past : List Event}
    (linear : Linearizes start s enabled calls past)
    (on : s.sregI = true)
    (made : List PinCall) :
    Linearizes start
      { s with io := s.io.execute (made.flatMap PinCall.code) }
      enabled (calls ++ made.map (Prod.mk .handler))
      (past ++ (made.flatMap PinCall.ops).map .byHandler) := by
  obtain ⟨pins, order, current, done, shown, byProgram, byHandler, located⟩ :=
    linear
  obtain ⟨rfl, stays⟩ :=
    located.handler on (s.io.execute (made.flatMap PinCall.code))
  refine ⟨?_, order ++ made.map (Prod.mk .handler), current, [], ?_, ?_, ?_,
    stays⟩
  · have stores :
        ((made.flatMap PinCall.ops).map Event.byHandler).filterMap Event.op? =
          made.flatMap PinCall.ops := by
      rw [List.filterMap_map]
      exact List.filterMap_some
    rw [List.filterMap_append, stores, List.foldl_append, ← pins]
    exact pins_execute_calls s.io made
  · have shows :
        ((made.flatMap PinCall.ops).map Event.byHandler).map Event.deed =
          (made.map (Prod.mk Doer.handler)).flatMap deeds := by
      rw [List.map_map, List.map_flatMap, List.flatMap_map]
      refine List.flatMap_congr (fun call _ => ?_)
      rw [deeds, List.map_map]
      rfl
    rw [List.map_append, shown, shows, List.flatMap_append, List.map_nil,
      List.append_nil, List.append_nil]
  · rw [callsBy_append, byProgram, callsBy_append,
      callsBy_other (by decide), List.append_nil, List.append_nil]
  · rw [callsBy_append, byHandler, callsBy_append]

theorem Linearizes.step?
    {start : PinBoard}
    {calls : List (Doer × PinCall)}
    {past emitted : List Event}
    {action : Action}
    (linear : Linearizes start s enabled calls past)
    (stepped : s.step? action = some (next, emitted)) :
    Linearizes start next (action.flag enabled) (calls ++ action.calls)
      (past ++ emitted) := by
  cases action with
  | call made =>
      rw [PinBoard.step?] at stepped
      split at stepped
      next isIdle =>
        obtain ⟨rfl, rfl⟩ := Prod.mk.inj (Option.some.inj stepped)
        rw [List.append_nil]
        exact linear.call isIdle made
      next =>
        contradiction
  | setInterrupts now =>
      rw [PinBoard.step?] at stepped
      split at stepped
      next isIdle =>
        obtain ⟨rfl, rfl⟩ := Prod.mk.inj (Option.some.inj stepped)
        obtain ⟨pins, order, current, done, shown, byProgram, byHandler,
          located⟩ := linear
        obtain ⟨rfl, rfl, flag⟩ := located.of_idle isIdle
        obtain ⟨noTodo, noReading⟩ := idle_iff.mp isIdle
        rw [List.append_nil, Action.calls, List.append_nil]
        exact ⟨pins, order, none, [], shown, byProgram, byHandler,
          .idle noTodo noReading rfl⟩
      next =>
        contradiction
  | run =>
      rw [Action.calls, List.append_nil]
      exact linear.runStep stepped
  | read level =>
      rw [PinBoard.step?] at stepped
      split at stepped
      next pin todo reading =>
        split at stepped
        · contradiction
        · obtain ⟨rfl, rfl⟩ := Prod.mk.inj (Option.some.inj stepped)
          rw [Action.calls, List.append_nil]
          exact linear.read todo reading level
      next =>
        contradiction
  | handler made =>
      rw [PinBoard.step?] at stepped
      split at stepped
      next on =>
        obtain ⟨rfl, rfl⟩ := Prod.mk.inj (Option.some.inj stepped)
        exact linear.handler on made
      next =>
        contradiction

theorem Linearizes.run?
    {start final : PinBoard}
    {calls : List (Doer × PinCall)}
    {past events : List Event}
    {actions : List Action}
    (linear : Linearizes start s enabled calls past)
    (ran : s.run? actions = some (final, events)) :
    Linearizes start final (actions.foldl Action.flag enabled)
      (calls ++ actions.flatMap Action.calls) (past ++ events) := by
  induction actions generalizing s enabled calls past events with
  | nil =>
      cases ran
      rw [List.flatMap_nil, List.append_nil, List.append_nil]
      exact linear
  | cons action rest inductionHypothesis =>
      obtain ⟨middle, first, later, stepped, continued, rfl⟩ :=
        LabelledRun.run?_cons_iff.mp ran
      have onward :=
        inductionHypothesis (linear.step? stepped) continued
      rw [List.append_assoc, List.append_assoc] at onward
      exact onward

theorem op?_eq (events : List Event) :
    events.filterMap Event.op? =
      (events.map (fun event => event.deed.2)).filterMap Deed.op? := by
  rw [List.filterMap_map]
  refine List.filterMap_congr (fun event _ => ?_)
  cases event <;> rfl

theorem filterMap_programDeeds (call : PinCall) :
    (programDeeds call).filterMap Deed.op? = call.ops := by
  have stores : (call.ops.map Deed.store).filterMap Deed.op? = call.ops := by
    rw [List.filterMap_map]
    exact List.filterMap_some
  rw [programDeeds, List.filterMap_append, stores]
  cases call.reads? <;> exact List.append_nil _

/-- The stores among what calls do. -/
theorem ops_of_deeds
    {events : List Event}
    {order : List (Doer × PinCall)}
    (shown : events.map Event.deed = order.flatMap deeds) :
    events.filterMap Event.op? = order.flatMap (fun call => call.2.ops) := by
  have deedsShown :
      events.map (fun event => event.deed.2) =
        (order.flatMap deeds).map Prod.snd := by
    rw [← shown, List.map_map]
    rfl
  rw [op?_eq, deedsShown, List.map_flatMap, List.filterMap_flatMap]
  refine List.flatMap_congr (fun call _ => ?_)
  obtain ⟨doer, call⟩ := call
  cases doer with
  | program =>
      rw [deeds, List.map_map]
      exact (congrArg _ (List.map_id _)).trans (filterMap_programDeeds call)
  | handler =>
      rw [deeds, List.map_map, List.map_map, List.filterMap_map]
      exact List.filterMap_some

theorem linearizes_of_run
    {start final : PinBoard}
    {actions : List Action}
    {events : List Event}
    (isIdle : start.idle = true)
    (ran : start.run? actions = some (final, events)) :
    Linearizes start final (actions.foldl Action.flag start.sregI)
      (actions.flatMap Action.calls) events := by
  obtain ⟨noTodo, noReading⟩ := idle_iff.mp isIdle
  have atStart : Linearizes start start start.sregI [] [] :=
    ⟨rfl, [], none, [], rfl, rfl, rfl, .idle noTodo noReading rfl⟩
  exact atStart.run? ran

/-- Between two calls of the program no call is half done. -/
theorem Linearizes.between
    {start : PinBoard}
    {calls : List (Doer × PinCall)}
    {past : List Event}
    (linear : Linearizes start s enabled calls past)
    (isIdle : s.idle = true) :
    s.sregI = enabled ∧
      ∃ order : List (Doer × PinCall),
        (∀ doer, callsBy doer order = callsBy doer calls) ∧
          past.map Event.deed = order.flatMap deeds := by
  obtain ⟨pins, order, current, done, shown, byProgram, byHandler, located⟩ :=
    linear
  obtain ⟨rfl, rfl, flag⟩ := located.of_idle isIdle
  rw [List.map_nil, List.append_nil] at shown
  rw [Option.toList_none, List.append_nil] at byProgram
  refine ⟨flag, order, fun doer => ?_, shown⟩
  cases doer with
  | program =>
      exact byProgram.symm
  | handler =>
      exact byHandler.symm

/--
Whatever the handlers do in between, the mode and latch bits of the pins are what
the stores of program and handlers make of them.  Once the program is between two
calls again, they are what the calls make of them one after the other, each as a
whole, and the interrupts are as the program last set them.
-/
theorem calls_linearize
    {start final : PinBoard}
    {actions : List Action}
    {events : List Event}
    (isIdle : start.idle = true)
    (ran : start.run? actions = some (final, events)) :
    final.io.pins =
        (events.filterMap Event.op?).foldl PinOp.apply start.io.pins ∧
      (final.idle = true →
        final.sregI = actions.foldl Action.flag start.sregI ∧
          ∃ order : List (Doer × PinCall),
            (∀ doer,
              callsBy doer order =
                callsBy doer (actions.flatMap Action.calls)) ∧
              events.map Event.deed = order.flatMap deeds ∧
                final.io.pins =
                  (order.flatMap (fun call => call.2.ops)).foldl
                    PinOp.apply start.io.pins) := by
  have linear := linearizes_of_run isIdle ran
  refine ⟨linear.pins, fun finalIdle => ?_⟩
  obtain ⟨flag, order, inOrder, shown⟩ := linear.between finalIdle
  exact ⟨flag, order, inOrder, shown, by rw [linear.pins, ops_of_deeds shown]⟩

/-- All registers zero, and interrupts on. -/
def cleared : PinBoard where
  sregI := true
  io := fun _ => 0
  oldSreg := false
  todo := []
  loaded := none
  reading := none

/-- A handler writes to a pin while the program is about to write to another. -/
def writesMeanwhile : List Action :=
  [.call (.digitalWrite (Fin.last 19) high), .run,
    .handler [.digitalWrite (Fin.castSucc (Fin.last 18)) high],
    .run, .run, .run, .run]

theorem run?_writesMeanwhile :
    (cleared.run? writesMeanwhile).isSome = true := by
  decide +kernel

theorem calls_linearize_writesMeanwhile :
    ∃ order : List (Doer × PinCall),
      (∀ doer,
        callsBy doer order =
          callsBy doer
            [(.program, .digitalWrite (Fin.last 19) high),
              (.handler, .digitalWrite (Fin.castSucc (Fin.last 18)) high)]) ∧
        ((cleared.run? writesMeanwhile).get
            run?_writesMeanwhile).2.map Event.deed =
          order.flatMap deeds ∧
        ((cleared.run? writesMeanwhile).get
            run?_writesMeanwhile).1.io.pins =
          (order.flatMap (fun call => call.2.ops)).foldl
            PinOp.apply cleared.io.pins :=
  ((@calls_linearize cleared _ writesMeanwhile _ rfl
    (Option.some_get run?_writesMeanwhile).symm).2 (by decide +kernel)).2

end PinBoard

end KeyboardEmulator
