import KeyboardEmulator.RegisterCode
import KeyboardEmulator.SerialClient

namespace KeyboardEmulator

open BootKeyboard (Byte)

/-!
# The control register under an arbitrary client

`begin`, `end`, `write` and the transmit handler change UCSR0B by
read-modify-writes.  Only the handler comes between the halves of another one,
and it changes nothing but UDRIE.  So no change of another bit is ever lost,
and outside of register code these bits stay as they are.
-/

/-- What the running method has read of UCSR0B. -/
def At.loadedUcsrb : At → Option Byte
  | .code _ (.modify .ucsr0b _ _ :: _) loaded => loaded
  | .write _ (.slowUcsrb loaded) => loaded
  | _ => none

/-- Register code is left. -/
def At.inCode : At → Bool
  | .code _ (_ :: _) _ => true
  | _ => false

namespace Usart

/-- A bit of UCSR0B. -/
def control (u : Usart) (b : Nat) : Bool :=
  u.m.io.bit .ucsr0b b

/-- What was read of UCSR0B is still right about this bit. -/
def Held (b : Nat) (u : Usart) : Prop :=
  ∀ value, u.location.loadedUcsrb = some value →
    value.getLsbD b = u.control b

/-- A step of register code, seen through a bit of UCSR0B. -/
inductive CodeStep
    (b : Nat)
    (u : Usart)
    (opening : Bool)
    (access : Access)
    (rest : List Access)
    (after : Usart) : Prop where
  | loads
      (value : Byte)
      (location : after.location = .code opening (access :: rest) (some value))
      (bit : after.control b = u.control b)
  | performs
      (location : after.location = .code opening rest none)
      (bit : after.control b = access.bitAfter .ucsr0b b (u.control b))

variable {u after : Usart} {b : Nat}

theorem held_of_nothing
    (nothing : u.location.loadedUcsrb = none) :
    Held b u := by
  intro value loaded
  rw [nothing] at loaded
  contradiction

/-! ## Register code -/

theorem control_store
    (m : Machine)
    (target : Reg)
    (value : Byte)
    (b : Nat) :
    (m.io.store target value).bit .ucsr0b b =
      if target = .ucsr0b then value.getLsbD b else m.io.bit .ucsr0b b := by
  by_cases same : target = .ucsr0b
  · subst same
    rw [IoFile.bit_store_same _ (by decide), if_pos rfl]
  · rw [IoFile.bit_store_other _ (Ne.symm same), if_neg same]

/-- A value that is right about the bit serves as well as a fresh one. -/
theorem control_perform
    (m : Machine)
    {access : Access}
    {value : Byte}
    (right :
      ∀ keep set, access = .modify .ucsr0b keep set →
        value.getLsbD b = m.io.bit .ucsr0b b) :
    (m.perform value access).io.bit .ucsr0b b =
      access.bitAfter .ucsr0b b (m.io.bit .ucsr0b b) := by
  cases access with
  | assign target stored =>
      exact control_store m target stored b
  | modify target keep set =>
      refine (control_store m target _ b).trans ?_
      rw [Access.bitAfter]
      split
      next same =>
        subst same
        rw [BitVec.getLsbD_or, BitVec.getLsbD_and, right keep set rfl]
      next =>
        rfl
  | _ =>
      rfl

theorem codeStep_control
    {opening : Bool}
    {access : Access}
    {rest : List Access}
    {loaded : Option Byte}
    (held : Held b u)
    (here : u.location = .code opening (access :: rest) loaded) :
    CodeStep b u opening access rest
      (u.codeStep opening (access :: rest) loaded) := by
  cases access with
  | modify target keep set =>
      cases loaded with
      | none =>
          exact .loads (u.m.io target) rfl rfl
      | some value =>
          refine .performs rfl (control_perform u.m ?_)
          rintro keep' set' isModify
          cases isModify
          exact held value (by rw [here]; rfl)
  | _ =>
      refine .performs rfl (control_perform u.m ?_)
      rintro keep' set' isModify
      contradiction

theorem Held.codeStep
    {opening : Bool}
    {todo : List Access}
    {loaded : Option Byte} :
    Held b (u.codeStep opening todo loaded) := by
  have unloaded :
      ∀ rest, (At.code opening rest none).loadedUcsrb = none := by
    intro rest
    cases rest with
    | nil =>
        rfl
    | cons access rest =>
        cases access with
        | modify target keep set =>
            cases target <;> rfl
        | _ =>
            rfl
  cases todo with
  | nil =>
      exact held_of_nothing (by cases opening <;> rfl)
  | cons access rest =>
      cases access with
      | modify target keep set =>
          cases loaded with
          | none =>
              intro value isLoaded
              cases target with
              | ucsr0b =>
                  cases isLoaded
                  rfl
              | _ =>
                  contradiction
          | some value =>
              exact held_of_nothing (unloaded rest)
      | _ =>
          exact held_of_nothing (unloaded rest)

/-! ## Outside of register code -/

theorem io_rxCompleteIrq
    (m : Machine)
    (c : Byte)
    (parityError : Bool) :
    (m.rxCompleteIrq c parityError).io =
      m.io.force .ucsr0a upe0 parityError := by
  simp only [Machine.rxCompleteIrq]
  split
  · split <;> rfl
  · rfl

section Other

variable (other : b ≠ udrie0)

include other

/-- The transmit handler changes UDRIE alone. -/
theorem control_txUdrEmptyIrq (m : Machine) :
    m.txUdrEmptyIrq.1.io.bit .ucsr0b b = m.io.bit .ucsr0b b := by
  have status :
      ∀ value : Byte,
        ((m.io.force .ucsr0a udre0 false).store .ucsr0a value).bit .ucsr0b b =
          m.io.bit .ucsr0b b := by
    intro value
    rw [IoFile.bit_store_other _ (by decide),
      IoFile.bit_force_other _ (by decide)]
  simp only [Machine.txUdrEmptyIrq]
  split
  · rw [IoFile.bit_store_same _ (by decide), BitVec.getLsbD_and,
      BitVec.getLsbD_not, getLsbD_bv]
    refine Eq.trans ?_
      (status (Machine.clearTxc (m.io.force .ucsr0a udre0 false .ucsr0a)))
    by_cases inByte : b < 8
    · simp [IoFile.bit, other, inByte]
    · rw [IoFile.bit, BitVec.getLsbD_of_ge _ _ (Nat.le_of_not_lt inByte)]
      exact Bool.false_and _
  · exact status _

theorem control_flushStep (ending : Bool) (position : FlushAt) :
    (u.flushStep ending position).1.control b = u.control b := by
  cases position with
  | testUdre =>
      rw [flushStep]
      split
      · exact control_txUdrEmptyIrq other u.m
      · rfl
  | ret =>
      rfl
  | _ =>
      rw [flushStep]
      split <;> rfl

theorem control_writeStep
    {c : Byte}
    {position : WriteAt}
    (held : Held b u)
    (here : u.location = .write c position) :
    (u.writeStep c position).1.control b = u.control b := by
  rw [writeStep]
  split
  · rfl
  · cases position with
    | spinUdre i =>
        simp only [Machine.writeStep]
        split
        · exact control_txUdrEmptyIrq other u.m
        · rfl
    | slowUcsrb loaded =>
        cases loaded with
        | none =>
            rfl
        | some value =>
            have right := held value (by rw [here]; rfl)
            refine (control_store u.m .ucsr0b _ b).trans ?_
            rw [if_pos rfl, BitVec.getLsbD_or, getLsbD_bv, right]
            simp [other]
    | fastUdr =>
        exact IoFile.bit_force_other _ (by decide) _ _ _
    | fastUcsra loaded =>
        cases loaded with
        | none =>
            rfl
        | some value =>
            exact IoFile.bit_store_other _ (by decide) _ _
    | compareTail | testUdre | spin | spinSreg =>
        simp only [Machine.writeStep]
        split <;> rfl
    | _ =>
        rfl

/-- A method that runs changes no such bit outside of register code. -/
theorem control_runStep
    (held : Held b u)
    (outside : u.location.inCode = false) :
    u.runStep.1.control b = u.control b := by
  rw [runStep]
  cases here : u.location with
  | code opening todo loaded =>
      cases todo with
      | nil =>
          rfl
      | cons access rest =>
          rw [here] at outside
          contradiction
  | flush ending position =>
      exact control_flushStep other ending position
  | write c position =>
      exact control_writeStep other held here
  | readTail head | peekTail head =>
      simp only [readStep, peekStep]
      split <;> rfl
  | _ =>
      rfl

theorem Held.runStep
    (held : Held b u) :
    Held b u.runStep.1 := by
  rw [Usart.runStep]
  cases here : u.location with
  | code opening todo loaded =>
      exact .codeStep
  | client =>
      exact held
  | readTail head | peekTail head =>
      simp only [readStep, peekStep]
      split <;> exact held_of_nothing rfl
  | flush ending position =>
      cases position with
      | ret =>
          exact held_of_nothing (by cases ending <;> rfl)
      | _ =>
          simp only [flushStep]
          split <;> exact held_of_nothing rfl
  | write c position =>
      have bit := control_writeStep other held here
      intro value loaded
      refine Eq.trans ?_ bit.symm
      cases position with
      | slowUcsrb before =>
          cases before with
          | none =>
              cases loaded
              rfl
          | some before =>
              contradiction
      | fastUcsra before =>
          cases before <;> contradiction
      | compareTail | testUdre | spin | spinSreg | spinUdre =>
          simp only [writeStep, reduceCtorEq, ↓reduceIte, Machine.writeStep]
            at loaded
          split at loaded <;> contradiction
      | _ =>
          contradiction
  | _ =>
      exact held_of_nothing rfl

/-- Only register code changes such a bit. -/
theorem control_step?
    {action : Action}
    {result : Usart × List Event}
    (held : Held b u)
    (outside : action = .run → u.location.inCode = false)
    (stepped : u.step? action = some result) :
    result.1.control b = u.control b := by
  have forced :
      ∀ (bit : Nat) (level : Bool),
        (u.m.io.force .ucsr0a bit level).bit .ucsr0b b = u.control b :=
    fun bit level => IoFile.bit_force_other _ (by decide) _ _ _
  cases step?_inversion stepped with
  | call isOutside method =>
      cases method <;> rfl
  | run inside =>
      exact control_runStep other held (outside rfl)
  | dataRegisterEmpty enabled udrie udre =>
      exact control_txUdrEmptyIrq other { u.m with sregI := false }
  | usartReceive enabled rxcie c parityError result handled =>
      subst handled
      exact (congrArg (·.bit .ucsr0b b)
        (io_rxCompleteIrq { u.m with sregI := false } c parityError)).trans
          (forced upe0 parityError)
  | load | finishLast =>
      exact forced _ _
  | setFlag | finishNext =>
      rfl

/-- What was read of UCSR0B stays right about such a bit. -/
theorem Held.step?
    {action : Action}
    {result : Usart × List Event}
    (held : Held b u)
    (stepped : u.step? action = some result) :
    Held b result.1 := by
  have stays :
      action ≠ .run →
        result.1.location = u.location →
          Held b result.1 := by
    intro notRun location value loaded
    rw [control_step? other held (fun isRun => absurd isRun notRun) stepped]
    exact held value (location ▸ loaded)
  cases step?_inversion stepped with
  | call isOutside method =>
      exact held_of_nothing (by cases method <;> rfl)
  | run inside =>
      exact held.runStep other
  | _ =>
      exact stays (by simp) rfl

end Other

end Usart

end KeyboardEmulator
