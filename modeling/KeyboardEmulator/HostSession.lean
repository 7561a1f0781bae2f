import KeyboardEmulator.Drain
import KeyboardEmulator.TypedText

namespace KeyboardEmulator

open BootKeyboard (Byte typed)

/-!
# What the host types during a run

The relay keeps the order of the bytes and the reports of a byte type that
byte, so whatever the interleaving the host has at every moment typed a
beginning of the received text, and all of it once the relay is idle.
-/

/-- The reports of the consumed bytes type those of them that can be typed. -/
theorem typed_flatMap_bytesFor (consumed : List Byte) :
    typed (consumed.flatMap bytesFor) =
      (consumed.filter typable).map some := by
  have asReports :
      consumed.flatMap bytesFor =
        (consumed.flatMap reportsFor).flatMap Vector.toList :=
    List.flatMap_assoc.symm
  rw [typed, asReports, BootKeyboard.reports_flatMap]
  exact typedFrom_flatMap_reportsFor consumed rfl

/-- The typable bytes of a beginning are a beginning of the typable bytes. -/
theorem typable_mono
    {past all : List Byte}
    (isPrefix : past <+: all) :
    (past.filter typable).map some <+: (all.filter typable).map some :=
  (isPrefix.filter typable).map some

namespace Machine

/-- In every state the host has typed a beginning of what `recv` stored. -/
theorem EndToEnd.typed_beginning
    {events : List Event}
    {m : Machine}
    (account : EndToEnd events m) :
    typed (events.filterMap Event.udr?) <+:
      ((events.filterMap Event.stored?).filter typable).map some := by
  have sentPrefix :
      events.filterMap Event.udr? <+:
        (events.filterMap Event.consumed?).flatMap bytesFor := by
    rw [← account.delivered, List.append_assoc]
    exact List.prefix_append _ _
  have consumedPrefix :
      events.filterMap Event.consumed? <+:
        events.filterMap Event.stored? := by
    rw [account.accepted]
    exact List.prefix_append _ _
  have typedPrefix := BootKeyboard.typed_mono sentPrefix
  rw [typed_flatMap_bytesFor] at typedPrefix
  exact typedPrefix.trans (typable_mono consumedPrefix)

/-- In an idle state the host has typed all of it. -/
theorem EndToEnd.typed_of_idle
    {events : List Event}
    {m : Machine}
    (account : EndToEnd events m)
    (idle : m.Idle) :
    typed (events.filterMap Event.udr?) =
      ((events.filterMap Event.stored?).filter typable).map some := by
  rw [account.sent_of_idle idle, typed_flatMap_bytesFor]

/--
From every state of every run after `uart.begin` the host has typed a beginning
of the text stored so far, and without further arrivals the run can go on to a
state in which it has typed all of it.
-/
theorem AfterBegin.types_stored_text
    {begun m : Machine}
    {actions : List Action}
    {events : List Event}
    (atBegin : begun.AfterBegin)
    (ran : begun.run? actions = some (m, events)) :
    typed (events.filterMap Event.udr?) <+:
        ((events.filterMap Event.stored?).filter typable).map some ∧
      ∃ draining final seen,
        (∀ action ∈ draining, Action.isArrival action = false) ∧
          m.run? draining = some (final, seen) ∧
            final.Idle ∧
              typed ((events ++ seen).filterMap Event.udr?) =
                ((events.filterMap Event.stored?).filter typable).map
                  some := by
  have follows : Follows begun.uart.bufferOverflow ([] ++ events) m :=
    atBegin.follows.run? ran
  obtain ⟨draining, final, seen, noArrivals, drained, idle⟩ :=
    follows.ok.exists_drain
  have atEnd := (follows.run? drained).endToEnd
  have noStored := run?_noStored follows.ok noArrivals drained
  refine ⟨follows.endToEnd.typed_beginning, draining, final, seen, noArrivals,
    drained, idle, ?_⟩
  have allTyped := atEnd.typed_of_idle idle
  rw [List.nil_append] at allTyped
  rw [allTyped, List.filterMap_append, noStored, List.append_nil]

end Machine

end KeyboardEmulator
