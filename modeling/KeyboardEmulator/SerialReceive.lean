import KeyboardEmulator.RelayHandlers
import KeyboardEmulator.SerialControl
import KeyboardEmulator.SerialDelivery

namespace KeyboardEmulator

open BootKeyboard (Byte)
open RingBuffer (Ring next distance)

/-!
# What `read`, `peek` and `available` answer

The receive handler only adds to the receive ring, and only `read` and `end`
take from it.  So what a method has read of the indices stays good while it
runs, and what `available` or `peek` has promised the following calls of `read`
keep, whatever arrives in between.
-/

namespace Usart

/-- The characters received and not yet read. -/
def unread (u : Usart) : List Byte :=
  u.m.serialRx.contents

namespace Event

def readGave? : Event → Option Int
  | .readGave ret => some ret
  | _ => none

def isEnded : Event → Bool
  | .ended _ => true
  | _ => false

/-- The characters an event takes out of the receive ring. -/
def taken : Event → List Byte
  | .readGave ret => if ret < 0 then [] else [BitVec.ofInt 8 ret]
  | .ended discarded => discarded
  | _ => []

end Event

/-- What `read` returns for a character. -/
def returned (c : Byte) : Int :=
  c.toNat

/--
What the running method has read still says about the receive ring, if the
characters `promised` are the next ones to be read.
-/
def RxAt (u : Usart) (promised : List Byte) : At → Prop
  | .readTail head | .peekTail head =>
      (head = u.m.serialRx.rd → promised = []) ∧
        (head ≠ u.m.serialRx.rd → ¬ u.m.serialRx.Empty)
  | .readIndex | .peekIndex =>
      ¬ u.m.serialRx.Empty
  | .readCell index | .peekCell index =>
      index = u.m.serialRx.rd ∧ ¬ u.m.serialRx.Empty
  | .readNext c =>
      c = u.m.serialRx.front ∧ ¬ u.m.serialRx.Empty
  | .readStore c tail =>
      tail = u.m.serialRx.rd ∧ c = u.m.serialRx.front ∧
        ¬ u.m.serialRx.Empty
  | .availableTail head =>
      distance u.m.serialRx.rd head ≤ u.m.serialRx.occupancy
  | .endHead tail =>
      tail = u.m.serialRx.rd
  | _ =>
      True

/-- The promised characters are the next ones, also for the running method. -/
structure RxOk (u : Usart) (promised : List Byte) : Prop where
  first : promised <+: u.unread
  position : u.RxAt promised u.location

/-- A step accounts for the characters and keeps what was promised. -/
structure Keeps
    (u : Usart)
    (promised : List Byte)
    (result : Usart × List Event) : Prop where
  flow :
    u.unread ++ result.2.filterMap Event.received? =
      result.2.flatMap Event.taken ++ result.1.unread
  ok : result.1.RxOk []
  kept :
    result.2.any Event.isEnded = false →
      ∃ left,
        result.1.RxOk left ∧
          promised.map returned <+:
            result.2.filterMap Event.readGave? ++ left.map returned

/-- Promising less is no harder. -/
theorem RxOk.nothing
    {u : Usart}
    {promised : List Byte}
    (ok : u.RxOk promised) :
    u.RxOk [] := by
  refine ⟨List.nil_prefix, ?_⟩
  have position := ok.position
  cases here : u.location with
  | readTail head | peekTail head =>
      rw [here] at position
      exact ⟨fun _ => rfl, position.2⟩
  | _ =>
      rw [here] at position
      exact position

variable {u after : Usart} {promised : List Byte} {events : List Event}

/-- A step that leaves the receive ring alone. -/
theorem Keeps.moves
    (ok : u.RxOk promised)
    (same : after.m.serialRx = u.m.serialRx)
    (target : after.RxAt promised after.location)
    (noReceived : events.filterMap Event.received? = [])
    (noTaken : events.flatMap Event.taken = [])
    (noRead :
      events.filterMap Event.readGave? = [] ∨ promised = []) :
    Keeps u promised (after, events) := by
  have unread : after.unread = u.unread := congrArg Ring.contents same
  have reached : after.RxOk promised := ⟨unread ▸ ok.first, target⟩
  refine ⟨?_, reached.nothing, fun _ => ⟨promised, reached, ?_⟩⟩
  · rw [noReceived, noTaken, unread, List.append_nil, List.nil_append]
  · rcases noRead with noRead | nothing
    · rw [noRead, List.nil_append]
    · rw [nothing]
      exact List.nil_prefix

/-- A step that is not about received characters. -/
theorem Keeps.silent
    {result : Usart × List Event}
    (ok : u.RxOk promised)
    (same : result.1.m.serialRx = u.m.serialRx)
    (target : result.1.RxAt promised result.1.location)
    (silent :
      result.2 = [] ∨ result.2 = [.flushed] ∨ result.2 = [.wrote]) :
    Keeps u promised result := by
  obtain ⟨after, events⟩ := result
  rcases silent with rfl | rfl | rfl <;>
    exact .moves ok same target rfl rfl (.inl rfl)

/-! ## The methods -/

theorem serialRx_perform (m : Machine) (loaded : Byte) (access : Access) :
    (m.perform loaded access).serialRx = m.serialRx := by
  cases access <;> rfl

theorem serialRx_codeStep
    (u : Usart)
    (opening : Bool)
    (todo : List Access)
    (loaded : Option Byte) :
    (u.codeStep opening todo loaded).m.serialRx = u.m.serialRx := by
  cases todo with
  | nil =>
      rfl
  | cons access rest =>
      cases access with
      | modify reg keep set =>
          cases loaded <;> rfl
      | _ =>
          exact serialRx_perform u.m (loaded.getD 0) _

theorem serialRx_txUdrEmptyIrq (m : Machine) :
    m.txUdrEmptyIrq.1.serialRx = m.serialRx := by
  rfl

theorem serialRx_flushStep
    (u : Usart)
    (ending : Bool)
    (position : FlushAt) :
    (u.flushStep ending position).1.m.serialRx = u.m.serialRx := by
  cases position with
  | testUdre =>
      rw [flushStep]
      split
      · exact serialRx_txUdrEmptyIrq u.m
      · rfl
  | ret =>
      rfl
  | _ =>
      rw [flushStep]
      split <;> rfl

theorem serialRx_writeStep
    (u : Usart)
    (c : Byte)
    (position : WriteAt) :
    (u.writeStep c position).1.m.serialRx = u.m.serialRx := by
  rw [writeStep]
  split
  · rfl
  · cases position with
    | spinUdre i =>
        simp only [Machine.writeStep]
        split
        · exact serialRx_txUdrEmptyIrq u.m
        · rfl
    | fastUcsra loaded | slowUcsrb loaded =>
        cases loaded <;> rfl
    | compareTail | testUdre | spin | spinSreg =>
        simp only [Machine.writeStep]
        split <;> rfl
    | _ =>
        rfl

/-- The end of `end()` discards what is left. -/
theorem Keeps.endStep
    (ok : u.RxOk promised)
    (here : u.location = .endTail ∨ ∃ tail, u.location = .endHead tail) :
    Keeps u promised (u.endStep u.location) := by
  have position := ok.position
  rcases here with here | ⟨tail, here⟩
  · rw [here, Usart.endStep]
    exact .moves ok rfl rfl rfl rfl (.inl rfl)
  · rw [here] at position ⊢
    have emptied :
        (u.endStep (.endHead tail)).1.m.serialRx.Empty :=
      position.symm
    have nothing : (u.endStep (.endHead tail)).1.unread = [] :=
      Ring.contents_eq_nil_iff.mpr emptied
    refine ⟨?_, ⟨List.nil_prefix, trivial⟩, fun noEnd => ?_⟩
    · rw [nothing]
      exact List.append_nil _ |>.trans (by
        simp [Usart.endStep, Event.taken, unread])
    · contradiction

/-- `available()` leaves everything as it is. -/
theorem Keeps.availableStep
    (ok : u.RxOk promised)
    (here :
      u.location = .availableHead ∨
        ∃ head, u.location = .availableTail head) :
    Keeps u promised (u.availableStep u.location) := by
  rcases here with here | ⟨head, here⟩
  · rw [here]
    exact .moves ok rfl (Nat.le_refl _) rfl rfl (.inl rfl)
  · rw [here]
    exact .moves ok rfl trivial rfl rfl (.inl rfl)

/-- What the first comparison of `read` and `peek` sees. -/
theorem RxOk.looks
    (ok : u.RxOk promised) :
    (u.m.serialRx.wr = u.m.serialRx.rd → promised = []) ∧
      (u.m.serialRx.wr ≠ u.m.serialRx.rd → ¬ u.m.serialRx.Empty) := by
  refine ⟨fun same => ?_, fun apart empty => apart empty.symm⟩
  have nothing : u.unread = [] :=
    Ring.contents_eq_nil_iff.mpr same.symm
  exact List.prefix_nil.mp (nothing ▸ ok.first)

theorem Keeps.peekStep
    (ok : u.RxOk promised)
    (here :
      u.location matches .peekHead | .peekTail _ | .peekIndex | .peekCell _) :
    Keeps u promised (u.peekStep u.location) := by
  have position := ok.position
  cases location : u.location with
  | peekHead =>
      exact .moves ok rfl ok.looks rfl rfl (.inl rfl)
  | peekTail head =>
      rw [location] at position
      rw [Usart.peekStep]
      split
      next =>
        exact .moves ok rfl trivial rfl rfl (.inl rfl)
      next apart =>
        exact .moves ok rfl (position.2 apart) rfl rfl (.inl rfl)
  | peekIndex =>
      rw [location] at position
      exact .moves ok rfl ⟨rfl, position⟩ rfl rfl (.inl rfl)
  | peekCell index =>
      exact .moves ok rfl trivial rfl rfl (.inl rfl)
  | _ =>
      rw [location] at here
      contradiction

/-- `read` takes the oldest character, or finds that there is none. -/
theorem Keeps.readStep
    (ok : u.RxOk promised)
    (here :
      u.location matches .readHead | .readTail _ | .readIndex | .readCell _
        | .readNext _ | .readStore _ _) :
    Keeps u promised (u.readStep u.location) := by
  have position := ok.position
  cases location : u.location with
  | readHead =>
      exact .moves ok rfl ok.looks rfl rfl (.inl rfl)
  | readTail head =>
      rw [location] at position
      rw [Usart.readStep]
      split
      next same =>
        exact .moves ok rfl trivial rfl rfl (.inr (position.1 same))
      next apart =>
        exact .moves ok rfl (position.2 apart) rfl rfl (.inl rfl)
  | readIndex =>
      rw [location] at position
      exact .moves ok rfl ⟨rfl, position⟩ rfl rfl (.inl rfl)
  | readCell index =>
      rw [location] at position
      obtain ⟨rfl, nonempty⟩ := position
      exact .moves ok rfl ⟨rfl, nonempty⟩ rfl rfl (.inl rfl)
  | readNext c =>
      rw [location] at position
      exact .moves ok rfl ⟨rfl, position⟩ rfl rfl (.inl rfl)
  | readStore c tail =>
      rw [location] at position
      obtain ⟨rfl, rfl, nonempty⟩ := position
      have oldest :
          u.unread = u.m.serialRx.front :: u.m.serialRx.release.contents :=
        Ring.contents_release nonempty
      refine ⟨?_, ⟨List.nil_prefix, trivial⟩, fun _ => ?_⟩
      · have notNegative :
            ¬ ((u.m.serialRx.front.toNat : Int) < 0) := by omega
        have took :
            Event.taken (.readGave u.m.serialRx.front.toNat) =
              [u.m.serialRx.front] := by
          simp [Event.taken, notNegative]
        rw [oldest]
        simp only [Usart.readStep, List.flatMap_cons, List.flatMap_nil, took]
        exact List.append_nil _
      · have first := ok.first
        cases promised with
        | nil =>
            exact ⟨[], ⟨List.nil_prefix, trivial⟩, List.nil_prefix⟩
        | cons c rest =>
            rw [oldest, List.cons_prefix_cons] at first
            obtain ⟨rfl, others⟩ := first
            exact ⟨rest, ⟨others, trivial⟩, List.prefix_refl _⟩
  | _ =>
      rw [location] at here
      contradiction

/-- Register code, `flush` and `write` do not look at the receive ring. -/
theorem rxAt_codeStep
    (u after : Usart)
    (promised : List Byte)
    (opening : Bool)
    (todo : List Access)
    (loaded : Option Byte) :
    after.RxAt promised (u.codeStep opening todo loaded).location := by
  cases todo with
  | nil =>
      cases opening <;> trivial
  | cons access rest =>
      cases access with
      | modify reg keep set =>
          cases loaded <;> trivial
      | _ =>
          trivial

theorem rxAt_flushStep
    (u after : Usart)
    (promised : List Byte)
    (ending : Bool)
    (position : FlushAt) :
    after.RxAt promised (u.flushStep ending position).1.location := by
  cases position with
  | ret =>
      cases ending <;> trivial
  | _ =>
      rw [flushStep]
      split <;> trivial

theorem rxAt_writeStep
    (u after : Usart)
    (promised : List Byte)
    (c : Byte)
    (position : WriteAt) :
    after.RxAt promised (u.writeStep c position).1.location := by
  rw [writeStep]
  split <;> trivial

theorem silent_flushStep
    (u : Usart)
    (ending : Bool)
    (position : FlushAt) :
    (u.flushStep ending position).2 = [] ∨
      (u.flushStep ending position).2 = [.flushed] ∨
        (u.flushStep ending position).2 = [.wrote] := by
  cases position with
  | ret =>
      exact .inr (.inl rfl)
  | _ =>
      rw [flushStep]
      split <;> exact .inl rfl

theorem silent_writeStep
    (u : Usart)
    (c : Byte)
    (position : WriteAt) :
    (u.writeStep c position).2 = [] ∨
      (u.writeStep c position).2 = [.flushed] ∨
        (u.writeStep c position).2 = [.wrote] := by
  rw [writeStep]
  split
  · exact .inr (.inr rfl)
  · exact .inl rfl

/-- One step of the method that runs. -/
theorem Keeps.runStep
    (ok : u.RxOk promised) :
    Keeps u promised u.runStep := by
  rw [Usart.runStep]
  cases here : u.location with
  | client =>
      exact .moves ok rfl ok.position rfl rfl (.inl rfl)
  | code opening todo loaded =>
      exact .moves ok (serialRx_codeStep _ _ _ _)
        (rxAt_codeStep _ _ _ _ _ _) rfl rfl (.inl rfl)
  | endTail | endHead tail =>
      have kept := Keeps.endStep ok (by simp [here])
      rw [here] at kept
      exact kept
  | availableHead | availableTail head =>
      have kept := Keeps.availableStep ok (by simp [here])
      rw [here] at kept
      exact kept
  | peekHead | peekTail head | peekIndex | peekCell index =>
      have kept := Keeps.peekStep ok (by rw [here])
      rw [here] at kept
      exact kept
  | readHead | readTail head | readIndex | readCell index | readNext c
  | readStore c tail =>
      have kept := Keeps.readStep ok (by rw [here])
      rw [here] at kept
      exact kept
  | roomHead | roomTail head =>
      exact .moves ok rfl trivial rfl rfl (.inl rfl)
  | flush ending position =>
      exact .silent ok (serialRx_flushStep u ending position)
        (rxAt_flushStep _ _ _ _ _) (silent_flushStep u ending position)
  | write c position =>
      exact .silent ok (serialRx_writeStep u c position)
        (rxAt_writeStep _ _ _ _ _) (silent_writeStep u c position)

/-! ## The client, handlers and hardware -/

theorem rxAt_of_same
    (same : after.m.serialRx = u.m.serialRx)
    (location : At) :
    after.RxAt promised location ↔ u.RxAt promised location := by
  cases location <;> simp only [RxAt, same]

/-- The receive ring and the position are as they were. -/
theorem Keeps.apart
    (ok : u.RxOk promised)
    (same : after.m.serialRx = u.m.serialRx)
    (location : after.location = u.location)
    (noReceived : events.filterMap Event.received? = [])
    (noTaken : events.flatMap Event.taken = [])
    (noRead : events.filterMap Event.readGave? = []) :
    Keeps u promised (after, events) := by
  refine .moves ok same ?_ noReceived noTaken (.inl noRead)
  rw [location]
  exact (rxAt_of_same same u.location).mpr ok.position

/-- The client enters a method. -/
theorem Keeps.enter
    (ok : u.RxOk promised)
    (method : Method) :
    Keeps u promised (u.enter method) := by
  cases method <;> exact .moves ok rfl trivial rfl rfl (.inl rfl)

/-- The receive handler stores unless there is a parity error or no room. -/
theorem serialRx_rxCompleteIrq
    (m : Machine)
    (c : Byte)
    (parityError : Bool) :
    (m.rxCompleteIrq c parityError).serialRx =
      if parityError = false ∧ ¬ m.serialRx.Full then
        (m.serialRx.fill c).commit
      else
        m.serialRx := by
  have status :
      (m.io.force .ucsr0a upe0 parityError).bit .ucsr0a upe0 =
        parityError :=
    IoFile.bit_force_same _ _ (by decide) _
  simp only [Machine.rxCompleteIrq, status]
  cases parityError with
  | true =>
      simp
  | false =>
      simp only [true_and, ↓reduceIte]
      by_cases room : next m.serialRx.wr = m.serialRx.rd
      · rw [if_neg (by simpa using room),
          if_neg (by simpa [Ring.Full] using room)]
      · rw [if_pos room, if_pos (by simpa [Ring.Full] using room)]

theorem next_ne (i : Fin 64) : next i ≠ i := by
  revert i
  decide

/-- Storing a character moves the head. -/
theorem receiveEvent_eq
    {before after : Machine}
    {c : Byte}
    {parityError : Bool}
    (stored :
      after.serialRx =
        if parityError = false ∧ ¬ before.serialRx.Full then
          (before.serialRx.fill c).commit
        else
          before.serialRx) :
    receiveEvent before after c =
      if parityError = false ∧ ¬ before.serialRx.Full then
        .received c
      else
        .refused c := by
  rw [receiveEvent, stored]
  split
  next =>
    exact if_neg (next_ne before.serialRx.wr)
  next =>
    exact if_pos rfl

/-- What is promised stays first when a character arrives behind it. -/
theorem RxOk.receive
    (ok : u.RxOk promised)
    {c : Byte}
    (room : ¬ u.m.serialRx.Full)
    (stored : after.m.serialRx = (u.m.serialRx.fill c).commit)
    (location : after.location = u.location) :
    after.RxOk promised := by
  have appended : after.unread = u.unread ++ [c] := by
    rw [unread, stored]
    exact Ring.contents_fill_commit room c
  have tail : after.m.serialRx.rd = u.m.serialRx.rd := by
    rw [stored]
    rfl
  have nonempty : ¬ after.m.serialRx.Empty := by
    rw [stored]
    exact Ring.not_empty_commit room
  have front :
      ¬ u.m.serialRx.Empty →
        after.m.serialRx.front = u.m.serialRx.front := by
    intro waiting
    rw [stored]
    exact Ring.front_fill_commit waiting c
  have longer :
      after.m.serialRx.occupancy = u.m.serialRx.occupancy + 1 := by
    rw [stored]
    exact Ring.occupancy_commit room
  refine ⟨?_, ?_⟩
  · rw [appended]
    exact ok.first.trans (List.prefix_append _ _)
  · have position := ok.position
    rw [location]
    cases here : u.location with
    | readTail head | peekTail head =>
        rw [here] at position
        exact ⟨fun same => position.1 (same.trans tail), fun _ => nonempty⟩
    | readIndex | peekIndex =>
        exact nonempty
    | readCell index | peekCell index =>
        rw [here] at position
        exact ⟨position.1.trans tail.symm, nonempty⟩
    | readNext c =>
        rw [here] at position
        exact ⟨position.1.trans (front position.2).symm, nonempty⟩
    | readStore c tail' =>
        rw [here] at position
        exact ⟨position.1.trans tail.symm,
          position.2.1.trans (front position.2.2).symm, nonempty⟩
    | availableTail head =>
        rw [here] at position
        have before : distance u.m.serialRx.rd head ≤ u.m.serialRx.occupancy :=
          position
        rw [RxAt, tail, longer]
        omega
    | endHead tail' =>
        rw [here] at position
        exact Eq.trans position tail.symm
    | _ =>
        trivial

/-- The receive interrupt. -/
theorem Keeps.usartReceive
    (ok : u.RxOk promised)
    (c : Byte)
    (parityError : Bool)
    {result : Machine × List KeyboardEmulator.Event}
    (handled :
      result =
        u.m.interrupt
          (fun entered => (entered.rxCompleteIrq c parityError, []))) :
    Keeps u promised (u.absorb result, [receiveEvent u.m result.1 c]) := by
  have stored :
      result.1.serialRx =
        if parityError = false ∧ ¬ u.m.serialRx.Full then
          (u.m.serialRx.fill c).commit
        else
          u.m.serialRx := by
    rw [handled]
    exact serialRx_rxCompleteIrq { u.m with sregI := false } c parityError
  rw [receiveEvent_eq stored]
  split at stored
  next room =>
    rw [if_pos room]
    have reached : (u.absorb result).RxOk promised :=
      ok.receive room.2 stored rfl
    refine ⟨?_, reached.nothing, fun _ => ⟨promised, reached, ?_⟩⟩
    · have appended :
          (u.absorb result).unread = u.unread ++ [c] :=
        (congrArg Ring.contents stored).trans
          (Ring.contents_fill_commit room.2 c)
      rw [appended]
      rfl
    · exact List.prefix_refl _
  next refused =>
    rw [if_neg refused]
    exact .apart ok stored rfl rfl rfl rfl

/-- Every step of the system accounts for the characters received. -/
theorem Keeps.step?
    {action : Action}
    {result : Usart × List Event}
    (ok : u.RxOk promised)
    (stepped : u.step? action = some result) :
    Keeps u promised result := by
  cases step?_inversion stepped with
  | call outside method =>
      exact .enter ok method
  | setFlag outside flag =>
      exact .apart ok rfl rfl rfl rfl rfl
  | run inside =>
      exact .runStep ok
  | dataRegisterEmpty enabled udrie udre =>
      exact .apart ok (serialRx_txUdrEmptyIrq { u.m with sregI := false })
        rfl rfl rfl rfl
  | usartReceive enabled rxcie c parityError result handled =>
      exact .usartReceive ok c parityError handled
  | load txen free udre =>
      exact .apart ok rfl rfl rfl rfl rfl
  | finishLast b busy udre outside =>
      exact .apart ok rfl rfl rfl rfl rfl
  | finishNext b busy udre =>
      exact .apart ok rfl rfl rfl rfl rfl

/-! ## After `end` -/

/-- `end` turns the receive interrupt off before it empties the ring. -/
def ClosesAt (u : Usart) : At → Prop
  | .code false todo _ =>
      codeBit .ucsr0b rxcie0 todo (u.control rxcie0) = false
  | .endTail | .endHead _ =>
      u.control rxcie0 = false
  | _ =>
      True

/-- Steps that leave position and RXCIE alone. -/
theorem ClosesAt.of_same
    (closes : u.ClosesAt u.location)
    (location : after.location = u.location)
    (rxcie : after.control rxcie0 = u.control rxcie0) :
    after.ClosesAt after.location := by
  rw [location]
  cases here : u.location with
  | code opening todo loaded =>
      rw [here] at closes
      cases opening with
      | true =>
          trivial
      | false =>
          rw [ClosesAt, rxcie]
          exact closes
  | endTail | endHead tail =>
      rw [here] at closes
      exact Eq.trans rxcie closes
  | _ =>
      trivial

/-- The register code of `end` leads RXCIE to where it will be. -/
theorem closesAt_codeStep
    {opening : Bool}
    {todo : List Access}
    {loaded : Option Byte}
    (held : Held rxcie0 u)
    (here : u.location = .code opening todo loaded)
    (closes : u.ClosesAt u.location) :
    (u.codeStep opening todo loaded).ClosesAt
      (u.codeStep opening todo loaded).location := by
  rw [here] at closes
  cases opening with
  | true =>
      cases todo with
      | nil =>
          trivial
      | cons access rest =>
          cases codeStep_control held here with
          | loads value location bit | performs location bit =>
              rw [location]
              trivial
  | false =>
      cases todo with
      | nil =>
          exact closes
      | cons access rest =>
          rw [ClosesAt, codeBit_cons] at closes
          cases codeStep_control held here with
          | loads value location bit =>
              rw [location, ClosesAt, codeBit_cons, bit]
              exact closes
          | performs location bit =>
              rw [location, ClosesAt, bit]
              exact closes

/-- `flush` goes on to the register code of `end`, if `end` called it. -/
theorem closesAt_flushStep
    (u : Usart)
    (ending : Bool)
    (position : FlushAt) :
    (u.flushStep ending position).1.ClosesAt
      (u.flushStep ending position).1.location := by
  cases position with
  | ret =>
      cases ending with
      | true =>
          have clears :
              ∀ x, codeBit .ucsr0b rxcie0 endCode x = false := by
            decide
          exact clears _
      | false =>
          trivial
  | _ =>
      rw [flushStep]
      split <;> trivial

/-- One step of the method that runs. -/
theorem closesAt_runStep
    (held : Held rxcie0 u)
    (closes : u.ClosesAt u.location) :
    u.runStep.1.ClosesAt u.runStep.1.location := by
  rw [runStep]
  cases here : u.location with
  | client =>
      exact closes
  | code opening todo loaded =>
      exact closesAt_codeStep held here closes
  | endTail =>
      rw [here] at closes
      exact closes
  | readTail head | peekTail head =>
      simp only [readStep, peekStep]
      split <;> trivial
  | flush ending position =>
      exact closesAt_flushStep u ending position
  | write c position =>
      simp only [writeStep]
      split <;> trivial
  | _ =>
      trivial

/-- Every step leads RXCIE on to where `end` wants it. -/
theorem closesAt_step?
    {action : Action}
    {result : Usart × List Event}
    (held : Held rxcie0 u)
    (closes : u.ClosesAt u.location)
    (stepped : u.step? action = some result) :
    result.1.ClosesAt result.1.location := by
  have same :
      action ≠ .run →
        result.1.location = u.location →
          result.1.ClosesAt result.1.location :=
    fun notRun location =>
      .of_same closes location
        (control_step? (by decide) held (fun isRun => absurd isRun notRun)
          stepped)
  cases step?_inversion stepped with
  | call outside method =>
      cases method <;> trivial
  | run inside =>
      exact closesAt_runStep held closes
  | _ =>
      exact same (by simp) rfl

/-- No method has anything to read, and none turns the receive interrupt on. -/
def DeafAt (u : Usart) : At → Prop
  | .code _ todo _ =>
      ∀ access ∈ todo, access.bitAfter .ucsr0b rxcie0 false = false
  | .readTail tail | .endHead tail =>
      tail = u.m.serialRx.rd
  | .readIndex | .readCell _ | .readNext _ | .readStore _ _ =>
      False
  | _ =>
      True

/-- `end` has returned, and `begin` was not called since. -/
structure Deaf (u : Usart) : Prop where
  rxcie : u.control rxcie0 = false
  held : Held rxcie0 u
  empty : u.m.serialRx.Empty
  position : u.DeafAt u.location

theorem deafAt_flushStep
    (u : Usart)
    (ending : Bool)
    (position : FlushAt) :
    (u.flushStep ending position).1.DeafAt
      (u.flushStep ending position).1.location := by
  cases position with
  | ret =>
      cases ending with
      | true =>
          have clears :
              ∀ access ∈ endCode,
                access.bitAfter .ucsr0b rxcie0 false = false := by
            decide
          exact clears
      | false =>
          trivial
  | _ =>
      rw [flushStep]
      split <;> trivial

theorem deafAt_codeStep
    {opening : Bool}
    {todo : List Access}
    {loaded : Option Byte}
    (held : Held rxcie0 u)
    (here : u.location = .code opening todo loaded)
    (position : u.DeafAt u.location) :
    (u.codeStep opening todo loaded).DeafAt
      (u.codeStep opening todo loaded).location := by
  rw [here] at position
  cases todo with
  | nil =>
      cases opening <;> trivial
  | cons access rest =>
      cases codeStep_control held here with
      | loads value location bit =>
          rw [location]
          exact position
      | performs location bit =>
          rw [location]
          exact (List.forall_mem_cons.mp position).2

/-- With nothing to read the ring stays empty. -/
theorem Deaf.ring_runStep
    (deaf : Deaf u) :
    u.runStep.1.m.serialRx.Empty ∧
      u.runStep.1.DeafAt u.runStep.1.location := by
  obtain ⟨rxcie, held, empty, position⟩ := deaf
  rw [Usart.runStep]
  cases here : u.location with
  | client =>
      exact ⟨empty, position⟩
  | code opening todo loaded =>
      exact ⟨serialRx_codeStep u opening todo loaded ▸ empty,
        deafAt_codeStep held here position⟩
  | readIndex | readCell index | readNext c | readStore c tail =>
      rw [here] at position
      exact position.elim
  | readTail head =>
      rw [here] at position
      simp only [readStep, if_pos (show head = u.m.serialRx.rd from position)]
      exact ⟨empty, trivial⟩
  | peekTail head =>
      simp only [peekStep]
      split <;> exact ⟨empty, trivial⟩
  | readHead =>
      exact ⟨empty, empty.symm⟩
  | endTail =>
      exact ⟨empty, rfl⟩
  | endHead tail =>
      rw [here] at position
      exact ⟨position.symm, trivial⟩
  | flush ending place =>
      exact ⟨serialRx_flushStep u ending place ▸ empty,
        deafAt_flushStep u ending place⟩
  | write c place =>
      refine ⟨serialRx_writeStep u c place ▸ empty, ?_⟩
      simp only [writeStep]
      split <;> trivial
  | _ =>
      exact ⟨empty, trivial⟩

theorem Deaf.rxcie_runStep
    (deaf : Deaf u) :
    u.runStep.1.control rxcie0 = false := by
  obtain ⟨rxcie, held, empty, position⟩ := deaf
  cases inCode : u.location.inCode with
  | false =>
      exact (control_runStep (by decide) held inCode).trans rxcie
  | true =>
      cases here : u.location with
      | code opening todo loaded =>
          rw [here] at inCode position
          cases todo with
          | nil =>
              contradiction
          | cons access rest =>
              rw [Usart.runStep, here]
              cases codeStep_control held here with
              | loads value location bit =>
                  exact bit.trans rxcie
              | performs location bit =>
                  rw [rxcie] at bit
                  exact bit.trans (position access List.mem_cons_self)
      | _ =>
          rw [here] at inCode
          contradiction

/-- Without another `begin` nothing arrives any more. -/
theorem Deaf.step?
    {action : Action}
    {result : Usart × List Event}
    (deaf : Deaf u)
    (noBegin : ∀ baud config, action ≠ .call (.begin baud config))
    (stepped : u.step? action = some result) :
    Deaf result.1 := by
  have held := deaf.held.step? (by decide) stepped
  have bit :
      action ≠ .run → result.1.control rxcie0 = false :=
    fun notRun =>
      (control_step? (by decide) deaf.held (fun isRun => absurd isRun notRun)
        stepped).trans deaf.rxcie
  have off : u.m.io.bit .ucsr0b rxcie0 = false := deaf.rxcie
  cases step?_inversion stepped with
  | call outside method =>
      have rxcie := bit (by simp)
      cases method with
      | begin baud config =>
          exact absurd rfl (noBegin baud config)
      | _ =>
          exact ⟨rxcie, held, deaf.empty, trivial⟩
  | run inside =>
      obtain ⟨empty, position⟩ := deaf.ring_runStep
      exact ⟨deaf.rxcie_runStep, held, empty, position⟩
  | usartReceive enabled rxcie =>
      rw [rxcie] at off
      contradiction
  | dataRegisterEmpty enabled udrie udre =>
      exact ⟨bit (by simp), held, deaf.empty, deaf.position⟩
  | _ =>
      exact ⟨bit (by simp), held, deaf.empty, deaf.position⟩

/-- Only the last step of `end` is seen as its return. -/
theorem endHead_of_ended
    {action : Action}
    {result : Usart × List Event}
    {discarded : List Byte}
    (stepped : u.step? action = some result)
    (ended : .ended discarded ∈ result.2) :
    action = .run ∧ ∃ tail, u.location = .endHead tail := by
  cases step?_inversion stepped with
  | call outside method =>
      cases method <;> simp [enter] at ended
  | usartReceive enabled rxcie c parityError result handled =>
      rw [receiveEvent] at ended
      split at ended <;> simp at ended
  | run inside =>
      refine ⟨rfl, ?_⟩
      rw [runStep] at ended
      cases here : u.location with
      | endHead tail =>
          exact ⟨tail, rfl⟩
      | readTail head | peekTail head =>
          rw [here] at ended
          simp only [readStep, peekStep] at ended
          split at ended <;> simp at ended
      | flush ending position =>
          rw [here] at ended
          rcases silent_flushStep u ending position with
            silent | silent | silent <;> simp [silent] at ended
      | write c position =>
          rw [here] at ended
          rcases silent_writeStep u c position with
            silent | silent | silent <;> simp [silent] at ended
      | _ =>
          rw [here] at ended
          simp [endStep, availableStep, peekStep, readStep,
            availableForWriteStep] at ended
  | _ =>
      simp at ended

/-! ## Runs -/

/-- The events so far account for the characters received. -/
structure Received (past : List Event) (u : Usart) : Prop where
  ok : u.RxOk []
  flow :
    past.filterMap Event.received? =
      past.flatMap Event.taken ++ u.unread
  held : Held rxcie0 u
  closes : u.ClosesAt u.location

theorem Received.step?
    {past emitted : List Event}
    {action : Action}
    (received : Received past u)
    (stepped : u.step? action = some (after, emitted)) :
    Received (past ++ emitted) after := by
  have keeps := Keeps.step? received.ok stepped
  refine ⟨keeps.ok, ?_, received.held.step? (by decide) stepped,
    closesAt_step? received.held received.closes stepped⟩
  rw [List.filterMap_append, List.flatMap_append, received.flow,
    List.append_assoc, keeps.flow, List.append_assoc]

theorem Fresh.received
    (fresh : u.Fresh) :
    Received [] u := by
  refine ⟨⟨List.nil_prefix, ?_⟩, ?_, held_of_nothing ?_, ?_⟩
  · rw [fresh.client]
    trivial
  · exact (Ring.contents_eq_nil_iff.mpr fresh.rxEmpty).symm
  · rw [fresh.client]
    rfl
  · rw [fresh.client]
    trivial

theorem Fresh.run?_received
    {start : Usart}
    {actions : List Action}
    (fresh : start.Fresh)
    (ran : start.run? actions = some (u, events)) :
    Received events u :=
  LabelledRun.run?_history Received
    (fun holds stepped => holds.step? stepped) fresh.received ran

theorem Received.deaf_of_ended
    {past : List Event}
    {action : Action}
    {result : Usart × List Event}
    {discarded : List Byte}
    (received : Received past u)
    (stepped : u.step? action = some result)
    (ended : .ended discarded ∈ result.2) :
    Deaf result.1 := by
  obtain ⟨rfl, tail, here⟩ := endHead_of_ended stepped ended
  have held := received.held.step? (by decide) stepped
  have position := received.ok.position
  have closes := received.closes
  rw [here] at position closes
  cases step?_inversion stepped with
  | run inside =>
      rw [runStep, here] at held ⊢
      exact ⟨closes, held, position.symm, trivial⟩

/-- Once `end` has returned, runs without `begin` receive nothing. -/
theorem Deaf.run?
    {actions : List Action}
    (deaf : Deaf u)
    (noBegin : ∀ baud config, .call (.begin baud config) ∉ actions)
    (ran : u.run? actions = some (after, events)) :
    Deaf after := by
  induction actions generalizing u events with
  | nil =>
      cases ran
      exact deaf
  | cons action rest inductionHypothesis =>
      obtain ⟨middle, first, later, stepped, continued, rfl⟩ :=
        LabelledRun.run?_cons_iff.mp ran
      refine inductionHypothesis (deaf.step? ?_ stepped) ?_ continued
      · intro baud config isBegin
        exact noBegin baud config (isBegin ▸ List.mem_cons_self)
      · intro baud config member
        exact noBegin baud config (List.mem_cons_of_mem _ member)

/-- What the events so far say about the characters received. -/
structure Reception (events : List Event) (u : Usart) : Prop where
  /-- each stored character is returned by `read` or discarded by `end` once, in order -/
  flow :
    events.filterMap Event.received? =
      events.flatMap Event.taken ++ u.unread
  /-- a character is refused for a parity error or with 63 unread, only then -/
  stores :
    ∀ c parityError result,
      u.step? (.usartReceive c parityError) = some result →
        result.2 =
          [if parityError = false ∧ u.unread.length < 63 then .received c
            else .refused c]
  /-- after `end` nothing is left and nothing arrives until the next `begin` -/
  closed :
    ∀ action after emitted discarded,
      u.step? action = some (after, emitted) →
      .ended discarded ∈ emitted →
        ∀ actions final seen,
          after.run? actions = some (final, seen) →
          (∀ baud config, .call (.begin baud config) ∉ actions) →
            final.unread = [] ∧
              ∀ c parityError, final.step? (.usartReceive c parityError) = none

/--
In every run of every client each character the handler stores is read once and
in order, unless `end` discards it.
-/
theorem serial_receives
    {start : Usart}
    {actions : List Action}
    (fresh : start.Fresh)
    (ran : start.run? actions = some (u, events)) :
    Reception events u := by
  have received := fresh.run?_received ran
  refine ⟨received.flow, fun c parityError result stepped => ?_, ?_⟩
  · cases step?_inversion stepped with
    | usartReceive enabled rxcie c parityError result handled =>
        have stored :
            result.1.serialRx =
              if parityError = false ∧ ¬ u.m.serialRx.Full then
                (u.m.serialRx.fill c).commit
              else
                u.m.serialRx := by
          rw [handled]
          exact
            serialRx_rxCompleteIrq { u.m with sregI := false } c parityError
        have room : ¬ u.m.serialRx.Full ↔ u.unread.length < 63 := by
          have bound := u.m.serialRx.occupancy_lt
          rw [unread, Ring.length_contents, Ring.full_iff_occupancy]
          omega
        simp only [receiveEvent_eq stored, room]
  · intro action reached emitted discarded stepped ended actions final seen
      onward noBegin
    have deaf := (received.deaf_of_ended stepped ended).run? noBegin onward
    refine ⟨Ring.contents_eq_nil_iff.mpr deaf.empty, fun c parityError => ?_⟩
    have off : final.m.io.bit .ucsr0b rxcie0 = false := deaf.rxcie
    simp [Usart.step?, Machine.step?, off]

/-- Two characters arrive; one is read, and `end` discards the other. -/
def readsAndEnds : List Action :=
  writesTwo ++
    [.usartReceive (BootKeyboard.ascii 'x') false,
      .usartReceive (BootKeyboard.ascii 'y') false, .call .read] ++
      List.replicate 6 .run ++
        [.load, .dataRegisterEmpty, .finish, .load, .finish, .call .end] ++
          List.replicate 15 .run

theorem run?_readsAndEnds :
    (powerOn.run? readsAndEnds).isSome = true := by
  decide +kernel

theorem serial_receives_readsAndEnds :
    Reception ((powerOn.run? readsAndEnds).get run?_readsAndEnds).2
      ((powerOn.run? readsAndEnds).get run?_readsAndEnds).1 :=
  @serial_receives _ _ powerOn readsAndEnds powerOn_fresh
    (Option.some_get run?_readsAndEnds).symm

end Usart

end KeyboardEmulator
