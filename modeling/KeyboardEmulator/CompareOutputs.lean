import KeyboardEmulator.SharedPins

namespace KeyboardEmulator

/-!
# Compare outputs shared with interrupt handlers

`digitalWrite` and `digitalRead` disconnect a pin from its timer before their
section, with a read-modify-write that an interrupt may come between.  What the
program disconnects stays so, whatever the handlers call.  What a handler
disconnects in between comes back, if its bit is in the same register.
-/

/-- The bit that connects a timer's compare output to its pin. -/
def compareOutput? : Timer → Option (Reg × Nat)
  | .notOnTimer => none
  | .timer0a => some (.tccr0a, 7)
  | .timer0b => some (.tccr0a, 5)
  | .timer1a => some (.tccr1a, 7)
  | .timer1b => some (.tccr1a, 5)
  | .timer2a => some (.tccr2a, 7)
  | .timer2b => some (.tccr2a, 5)

/-- The pin shows what the timer makes of it. -/
def IoFile.connected (io : IoFile) (pin : Pin) : Bool :=
  (compareOutput? (digitalPinToTimer pin)).any (fun out => io.bit out.1 out.2)

theorem turnOffPwm_eq (timer : Timer) :
    turnOffPwm timer =
      (compareOutput? timer).toList.map (fun out => cbi out.1 out.2) := by
  cases timer <;> rfl

theorem compareOutput?_plain
    {timer : Timer}
    {reg : Reg}
    {b : Nat}
    (isOutput : compareOutput? timer = some (reg, b)) :
    reg ≠ .ucsr0a ∧ reg.isGpio = false ∧ b < 8 := by
  cases timer <;> cases isOutput <;> decide

/-- The access does not set this bit. -/
def Access.Unsetting (reg : Reg) (b : Nat) : Access → Prop
  | .modify query _ set => query = reg → set.getLsbD b = false
  | .assign _ _ => False
  | _ => True

theorem unsetting_cbi (reg query : Reg) (b c : Nat) :
    (cbi query c).Unsetting reg b := by
  intro _
  exact BitVec.getLsbD_zero

namespace PinCall

/-- The calls that turn the compare output of a pin off. -/
def disconnects (pin : Pin) : PinCall → Bool
  | .digitalWrite other _ | .digitalRead other => decide (other = pin)
  | .pinMode _ _ => false

theorem pwmCode_eq (call : PinCall) :
    call.pwmCode = [] ∨
      ∃ pin, call.disconnects pin = true ∧
        call.pwmCode = turnOffPwm (digitalPinToTimer pin) := by
  cases call with
  | pinMode pin mode =>
      exact .inl rfl
  | digitalWrite pin val | digitalRead pin =>
      rw [pwmCode]
      split
      · exact .inr ⟨pin, decide_eq_true rfl, rfl⟩
      · exact .inl rfl

/-- No call connects a pin to a timer. -/
theorem unsetting_code
    {timer : Timer}
    {reg : Reg}
    {b : Nat}
    (isOutput : compareOutput? timer = some (reg, b))
    (call : PinCall) :
    ∀ access ∈ call.code, access.Unsetting reg b := by
  have notGpio := (compareOutput?_plain isOutput).2.1
  have stores : ∀ op : PinOp, op.access.Unsetting reg b := by
    intro op
    cases op with
    | direction pin level =>
        cases level <;> rintro rfl <;>
          exact absurd (notGpio.symm.trans (isGpio_pin pin).1) Bool.false_ne_true
    | latch pin level =>
        cases level <;> rintro rfl <;>
          exact absurd (notGpio.symm.trans (isGpio_pin pin).2) Bool.false_ne_true
  intro access member
  rw [code_eq, List.mem_append] at member
  rcases member with inPwm | inStores
  · rcases pwmCode_eq call with none_ | ⟨pin, -, isPwm⟩
    · rw [none_] at inPwm
      exact absurd inPwm List.not_mem_nil
    · rw [isPwm, turnOffPwm_eq] at inPwm
      obtain ⟨out, -, rfl⟩ := List.mem_map.mp inPwm
      exact unsetting_cbi _ _ _ _
  · cases ops : call.ops with
    | nil =>
        rw [ops] at inStores
        exact absurd inStores List.not_mem_nil
    | cons op rest =>
        rw [ops, storeCode, guarded, List.mem_append, List.mem_append]
          at inStores
        rcases inStores with (inHead | inBody) | inTail
        · rcases List.mem_pair.mp inHead with rfl | rfl <;> trivial
        · obtain ⟨other, -, rfl⟩ := List.mem_map.mp inBody
          exact stores other
        · rw [List.mem_singleton.mp inTail]
          trivial

end PinCall

section Bit

variable {reg : Reg} {b : Nat}

/-- A read-modify-write that finds the bit clear leaves it clear. -/
theorem bit_store_unsetting
    (plain : reg ≠ .ucsr0a)
    {io : IoFile}
    (off : io.bit reg b = false)
    {query : Reg}
    {keep set value : BitVec 8}
    (unsetting : (Access.modify query keep set).Unsetting reg b)
    (read : query = reg → value.getLsbD b = false) :
    (io.store query ((value &&& keep) ||| set)).bit reg b = false := by
  by_cases same : query = reg
  · have clear := unsetting same
    have wasOff := read same
    subst same
    rw [IoFile.bit_store_same _ plain, BitVec.getLsbD_or, BitVec.getLsbD_and,
      clear, wasOff]
    rfl
  · rw [IoFile.bit_store_other _ (Ne.symm same)]
    exact off

theorem bit_execute_unsetting
    (plain : reg ≠ .ucsr0a)
    {io : IoFile}
    (off : io.bit reg b = false)
    {todo : List Access}
    (unsetting : ∀ access ∈ todo, access.Unsetting reg b) :
    (io.execute todo).bit reg b = false := by
  induction todo generalizing io with
  | nil =>
      exact off
  | cons access rest inductionHypothesis =>
      obtain ⟨here, later⟩ := List.forall_mem_cons.mp unsetting
      cases access with
      | modify query keep set =>
          refine inductionHypothesis ?_ later
          exact bit_store_unsetting plain off here (fun same => same ▸ off)
      | assign query value =>
          exact here.elim
      | _ =>
          exact inductionHypothesis off later

end Bit

namespace PinBoard

variable {s next : PinBoard} {reg : Reg} {b : Nat}

/-- The bit is clear, also where the program has read it before. -/
structure Off (reg : Reg) (b : Nat) (s : PinBoard) : Prop where
  bit : s.io.bit reg b = false
  loaded :
    ∀ keep set rest value,
      s.todo = .modify reg keep set :: rest →
        s.loaded = some value →
          value.getLsbD b = false

theorem Off.of_unloaded
    (bit : s.io.bit reg b = false)
    (unloaded : s.loaded = none) :
    Off reg b s := by
  refine ⟨bit, fun _ _ _ value _ loaded => ?_⟩
  rw [unloaded] at loaded
  exact absurd loaded.symm (Option.some_ne_none value)

/-- The bit is clear, or the program goes on to clear it. -/
structure TurnsOff (reg : Reg) (b : Nat) (s : PinBoard) : Prop where
  unsetting : ∀ access ∈ s.todo, access.Unsetting reg b
  settles : cbi reg b ∈ s.todo ∨ Off reg b s

theorem Off.runStep
    {result : PinBoard × List Event}
    (plain : reg ≠ .ucsr0a)
    (unsetting : ∀ access ∈ s.todo, access.Unsetting reg b)
    (off : Off reg b s)
    (stepped : s.runStep = some result) :
    Off reg b result.1 := by
  cases todo : s.todo with
  | nil =>
      rw [PinBoard.runStep, todo] at stepped
      contradiction
  | cons access rest =>
      rw [todo] at unsetting
      obtain ⟨here, later⟩ := List.forall_mem_cons.mp unsetting
      cases access with
      | modify query keep set =>
          cases loaded : s.loaded with
          | none =>
              rw [runStep_load todo loaded] at stepped
              obtain rfl := Option.some.inj stepped
              refine ⟨off.bit, ?_⟩
              rintro keep' set' rest' value isTodo ⟨⟩
              cases todo.symm.trans isTodo
              exact off.bit
          | some value =>
              rw [runStep_store todo loaded] at stepped
              obtain rfl := Option.some.inj stepped
              refine .of_unloaded (bit_store_unsetting plain off.bit here ?_) rfl
              rintro rfl
              exact off.loaded _ _ _ _ todo loaded
      | assign query value =>
          exact here.elim
      | _ =>
          rw [PinBoard.runStep, todo] at stepped
          obtain rfl := Option.some.inj stepped
          exact .of_unloaded off.bit rfl

/-- A step leaves what is left of the call, or makes the first access of it. -/
theorem todo_runStep
    {result : PinBoard × List Event}
    (stepped : s.runStep = some result) :
    result.1.todo = s.todo ∨ result.1.todo = s.todo.tail := by
  cases todo : s.todo with
  | nil =>
      rw [PinBoard.runStep, todo] at stepped
      contradiction
  | cons access rest =>
      rw [PinBoard.runStep, todo] at stepped
      cases access with
      | modify query keep set =>
          cases loaded : s.loaded with
          | none =>
              rw [loaded] at stepped
              obtain rfl := Option.some.inj stepped
              exact .inl rfl
          | some value =>
              rw [loaded] at stepped
              obtain rfl := Option.some.inj stepped
              exact .inr rfl
      | _ =>
          obtain rfl := Option.some.inj stepped
          exact .inr rfl

/-- The store of `cbi` clears the bit. -/
theorem Off.of_cbi
    (plain : reg ≠ .ucsr0a)
    {rest : List Access}
    {value : BitVec 8}
    {result : PinBoard × List Event}
    (inByte : b < 8)
    (todo : s.todo = cbi reg b :: rest)
    (loaded : s.loaded = some value)
    (stepped : s.runStep = some result) :
    Off reg b result.1 := by
  rw [cbi, andNotMask] at todo
  rw [runStep_store todo loaded] at stepped
  obtain rfl := Option.some.inj stepped
  refine .of_unloaded ?_ rfl
  rw [IoFile.bit_store_same _ plain, BitVec.getLsbD_or, BitVec.getLsbD_and,
    BitVec.getLsbD_not, getLsbD_bv]
  simp [inByte]

theorem TurnsOff.runStep
    {result : PinBoard × List Event}
    (plain : reg ≠ .ucsr0a)
    (inByte : b < 8)
    (turnsOff : TurnsOff reg b s)
    (stepped : s.runStep = some result) :
    TurnsOff reg b result.1 := by
  have left := todo_runStep stepped
  refine ⟨fun access member => turnsOff.unsetting access ?_, ?_⟩
  · rcases left with same | tail
    · exact same ▸ member
    · exact List.mem_of_mem_tail (tail ▸ member)
  · rcases turnsOff.settles with pending | off
    · cases todo : s.todo with
      | nil =>
          rw [todo] at pending
          exact absurd pending List.not_mem_nil
      | cons access rest =>
          rw [todo] at pending left
          rcases List.mem_cons.mp pending with isFirst | later
          · rw [← isFirst] at todo
            cases loaded : s.loaded with
            | none =>
                rw [cbi, andNotMask] at todo
                rw [runStep_load todo loaded] at stepped
                obtain rfl := Option.some.inj stepped
                refine .inl ?_
                change _ ∈ s.todo
                rw [todo]
                exact List.mem_cons_self
            | some value =>
                exact .inr (.of_cbi plain inByte todo loaded stepped)
          · refine .inl ?_
            rcases left with same | tail
            · rw [same]
              exact pending
            · rw [tail]
              exact later
    · exact .inr (off.runStep plain turnsOff.unsetting stepped)

theorem unsetting_codes
    {timer : Timer}
    (isOutput : compareOutput? timer = some (reg, b))
    (calls : List PinCall) :
    ∀ access ∈ calls.flatMap PinCall.code, access.Unsetting reg b := by
  intro access member
  obtain ⟨call, -, inCode⟩ := List.mem_flatMap.mp member
  exact PinCall.unsetting_code isOutput call access inCode

/-- Neither program nor handlers connect the pin again. -/
theorem TurnsOff.step?
    {timer : Timer}
    (isOutput : compareOutput? timer = some (reg, b))
    {action : Action}
    {result : PinBoard × List Event}
    (turnsOff : TurnsOff reg b s)
    (stepped : s.step? action = some result) :
    TurnsOff reg b result.1 := by
  obtain ⟨plain, -, inByte⟩ := compareOutput?_plain isOutput
  cases action with
  | call made =>
      rw [PinBoard.step?] at stepped
      split at stepped
      next isIdle =>
        obtain rfl := Option.some.inj stepped
        have noTodo := (idle_iff.mp isIdle).1
        have off : Off reg b s := by
          refine turnsOff.settles.resolve_left (fun pending => ?_)
          rw [noTodo] at pending
          exact List.not_mem_nil pending
        exact ⟨PinCall.unsetting_code isOutput made,
          .inr (.of_unloaded off.bit rfl)⟩
      next =>
        contradiction
  | setInterrupts enabled =>
      rw [PinBoard.step?] at stepped
      split at stepped
      next =>
        obtain rfl := Option.some.inj stepped
        exact ⟨turnsOff.unsetting,
          turnsOff.settles.imp_right (fun off => ⟨off.bit, off.loaded⟩)⟩
      next =>
        contradiction
  | run =>
      exact turnsOff.runStep plain inByte stepped
  | read level =>
      rw [PinBoard.step?] at stepped
      split at stepped
      next =>
        split at stepped
        · contradiction
        · obtain rfl := Option.some.inj stepped
          exact ⟨turnsOff.unsetting,
            turnsOff.settles.imp_right (fun off => ⟨off.bit, off.loaded⟩)⟩
      next =>
        contradiction
  | handler made =>
      rw [PinBoard.step?] at stepped
      split at stepped
      next =>
        obtain rfl := Option.some.inj stepped
        refine ⟨turnsOff.unsetting,
          turnsOff.settles.imp_right (fun off => ⟨?_, off.loaded⟩)⟩
        exact bit_execute_unsetting plain off.bit (unsetting_codes isOutput made)
      next =>
        contradiction

theorem pwmCode_of_disconnects
    {pin : Pin}
    (isOutput : compareOutput? (digitalPinToTimer pin) = some (reg, b))
    {call : PinCall}
    (disconnects : call.disconnects pin = true) :
    call.pwmCode = [cbi reg b] := by
  have onTimer : digitalPinToTimer pin ≠ .notOnTimer := by
    intro none_
    rw [none_] at isOutput
    contradiction
  cases call with
  | pinMode other mode =>
      contradiction
  | digitalWrite other val | digitalRead other =>
      obtain rfl := of_decide_eq_true disconnects
      rw [PinCall.pwmCode, if_pos onTimer, turnOffPwm_eq, isOutput]
      rfl

/-- A call that disconnects the pin begins with that. -/
theorem TurnsOff.of_call
    {pin : Pin}
    (isOutput : compareOutput? (digitalPinToTimer pin) = some (reg, b))
    {call : PinCall}
    (disconnects : call.disconnects pin = true)
    (io : IoFile)
    (sregI oldSreg : Bool)
    (reading : Option Pin) :
    TurnsOff reg b ⟨sregI, io, oldSreg, call.code, none, reading⟩ := by
  refine ⟨PinCall.unsetting_code isOutput call, .inl ?_⟩
  rw [PinCall.code_eq, pwmCode_of_disconnects isOutput disconnects]
  exact List.mem_cons_self

theorem turnsOff_of_run
    {pin : Pin}
    (isOutput : compareOutput? (digitalPinToTimer pin) = some (reg, b))
    {final : PinBoard}
    {actions : List Action}
    {events : List Event}
    (ran : s.run? actions = some (final, events))
    (calls :
      TurnsOff reg b s ∨
        ∃ call, .call call ∈ actions ∧ call.disconnects pin = true) :
    TurnsOff reg b final := by
  induction actions generalizing s events with
  | nil =>
      cases ran
      exact calls.resolve_right
        (fun ⟨_, member, _⟩ => List.not_mem_nil member)
  | cons action rest inductionHypothesis =>
      obtain ⟨middle, first, later, stepped, continued, rfl⟩ :=
        LabelledRun.run?_cons_iff.mp ran
      refine inductionHypothesis continued ?_
      rcases calls with turnsOff | ⟨call, member, disconnects⟩
      · exact .inl (turnsOff.step? isOutput stepped)
      · rcases List.mem_cons.mp member with isFirst | inRest
        · subst isFirst
          rw [PinBoard.step?] at stepped
          split at stepped
          · obtain ⟨rfl, -⟩ := Prod.mk.inj (Option.some.inj stepped)
            exact .inl (.of_call isOutput disconnects _ _ _ _)
          · contradiction
        · exact .inr ⟨call, inRest, disconnects⟩

/--
Whatever the handlers call in between, a pin that the program has written to or
read shows what was written, not what a timer makes of it, whenever the program
is between two calls.
-/
theorem program_disconnects
    {start final : PinBoard}
    {actions : List Action}
    {events : List Event}
    (ran : start.run? actions = some (final, events))
    (isIdle : final.idle = true)
    {call : PinCall}
    (made : .call call ∈ actions)
    {pin : Pin}
    (disconnects : call.disconnects pin = true) :
    final.io.connected pin = false := by
  rw [IoFile.connected]
  cases isOutput : compareOutput? (digitalPinToTimer pin) with
  | none =>
      rfl
  | some out =>
      obtain ⟨reg, b⟩ := out
      have turnsOff :=
        turnsOff_of_run isOutput ran (.inr ⟨call, made, disconnects⟩)
      have off : Off reg b final := by
        refine turnsOff.settles.resolve_left (fun pending => ?_)
        rw [(idle_iff.mp isIdle).1] at pending
        exact List.not_mem_nil pending
      exact off.bit

/-- Timer 1 drives pins 9 and 10. -/
def timerOneOn : PinBoard :=
  { cleared with io := fun reg => if reg = .tccr1a then 0xa0 else 0 }

/-- The pins of timer 1. -/
def pin9 : Pin := ⟨9, by decide⟩

def pin10 : Pin := ⟨10, by decide⟩

/-- The program writes to one pin, and a handler to the other meanwhile. -/
def writesBoth : List Action :=
  [.call (.digitalWrite pin9 low), .run, .run,
    .handler [.digitalWrite pin10 high], .run, .run, .run, .run, .run]

theorem run?_writesBoth :
    (timerOneOn.run? writesBoth).isSome = true := by
  decide +kernel

theorem program_disconnects_writesBoth :
    ((timerOneOn.run? writesBoth).get run?_writesBoth).1.io.connected pin9 =
      false :=
  @program_disconnects timerOneOn _ writesBoth _
    (Option.some_get run?_writesBoth).symm (by decide +kernel)
    (.digitalWrite pin9 low) List.mem_cons_self pin9 rfl

/-! ## What a handler loses -/

/-- A program that turns a compare output off; a handler comes in between. -/
def comesBetween
    (pin other : Pin)
    (val val' : BitVec 8) : List Action :=
  [.call (.digitalWrite pin val), .run,
    .handler [.digitalWrite other val'],
    .run, .run, .run, .run, .run, .run]

/--
When two pins have compare outputs of one timer, a handler that disconnects the
one, between the halves of the read-modify-write by which the program
disconnects the other, does so in vain.
-/
theorem handler_disconnects_vainly
    {start : PinBoard}
    (isIdle : start.idle = true)
    (on : start.sregI = true)
    {pin other : Pin}
    {reg : Reg}
    {b c : Nat}
    (mine : compareOutput? (digitalPinToTimer pin) = some (reg, b))
    (theirs : compareOutput? (digitalPinToTimer other) = some (reg, c))
    (differ : c ≠ b)
    (connected : start.io.connected other = true)
    (val val' : BitVec 8) :
    ∃ final events,
      start.run? (comesBetween pin other val val') = some (final, events) ∧
        final.idle = true ∧
          final.io.connected pin = false ∧
            final.io.connected other = true := by
  obtain ⟨out, keep, set, isModify⟩ :=
    access_eq_modify (.latch pin (val != low))
  have outGpio : out.isGpio = true := by
    have isOut := (isGpio_pin pin).2
    rw [PinOp.access, setBit] at isModify
    split at isModify <;> cases isModify <;> exact isOut
  have disconnects : (PinCall.digitalWrite pin val).disconnects pin = true :=
    decide_eq_true rfl
  have code :
      (PinCall.digitalWrite pin val).code =
        [.modify reg (~~~bv b) 0, .saveSreg, .cli, .modify out keep set,
          .restoreSreg] := by
    rw [PinCall.code_eq, pwmCode_of_disconnects mine disconnects,
      PinCall.ops, PinCall.storeCode, ← isModify]
    rfl
  have called :
      start.step? (.call (.digitalWrite pin val)) =
        some
          ({ start with
              todo :=
                [.modify reg (~~~bv b) 0, .saveSreg, .cli,
                  .modify out keep set, .restoreSreg]
              loaded := none
              reading := none }, []) := by
    rw [PinBoard.step?, if_pos isIdle, code]
    rfl
  obtain ⟨plain, notGpio, inByte⟩ := compareOutput?_plain theirs
  have myByte := (compareOutput?_plain mine).2.2
  have distinct : reg ≠ out := by
    rintro rfl
    exact Bool.false_ne_true (notGpio.symm.trans outGpio)
  have wasOn : start.io.bit reg c = true := by
    rw [IoFile.connected, theirs] at connected
    exact connected
  obtain ⟨sregI, io, oldSreg, todo, loaded, reading⟩ := start
  cases on
  have ran :
      ∃ final events,
        run? ⟨true, io, oldSreg, todo, loaded, reading⟩
            (comesBetween pin other val val') =
          some (final, events) ∧
          final.idle = true ∧
            ∃ between : IoFile,
              final.io =
                (between.store reg ((io reg &&& ~~~bv b) ||| 0)).store out
                  (((between.store reg ((io reg &&& ~~~bv b) ||| 0)) out
                    &&& keep) ||| set) :=
    ⟨_, _, LabelledRun.run?_cons_iff.mpr ⟨_, _, _, called, rfl, rfl⟩, rfl,
      _, rfl⟩
  obtain ⟨final, events, ran, finalIdle, between, finalIo⟩ := ran
  -- the value that the program stores is older than what the handler stored
  have bits :
      ∀ bit,
        final.io.bit reg bit =
          ((io reg).getLsbD bit && (decide (bit < 8) &&
            !(decide (bit < 8) && decide (bit = b)))) := by
    intro bit
    have noSet : (0 : BitVec 8).getLsbD bit = false := BitVec.getLsbD_zero
    rw [finalIo, IoFile.bit_store_other _ distinct,
      IoFile.bit_store_same _ plain, BitVec.getLsbD_or, BitVec.getLsbD_and,
      BitVec.getLsbD_not, getLsbD_bv, noSet, Bool.or_false]
  refine ⟨final, events, ran, finalIdle, ?_, ?_⟩
  · rw [IoFile.connected, mine]
    change final.io.bit reg b = false
    rw [bits]
    simp [myByte]
  · rw [IoFile.connected, theirs]
    change final.io.bit reg c = true
    have stays : (io reg).getLsbD c = true := wasOn
    rw [bits]
    simp [stays, differ, inByte]

theorem handler_disconnects_vainly_timerOneOn :
    ∃ final events,
      timerOneOn.run? (comesBetween pin9 pin10 low low) =
          some (final, events) ∧
        final.idle = true ∧
          final.io.connected pin9 = false ∧
            final.io.connected pin10 = true :=
  @handler_disconnects_vainly timerOneOn rfl rfl pin9 pin10 .tccr1a 7 5 rfl rfl
    (by decide) (by decide +kernel) low low

end PinBoard

end KeyboardEmulator
