import KeyboardEmulator.RelayRefinement
import KeyboardEmulator.TypedText

namespace KeyboardEmulator

open BootKeyboard (Byte Host)
open RingBuffer (Ring)

/-!
# What the host holds after each keystroke

The report that main sends to release a key has the Left Shift bit set, so the
host holds Left Shift from the first translated byte on.
-/

/-- The release report holds Left Shift. -/
theorem receive_clearCommand :
    (Host.receive clearCommand).HoldsModifier 1 := by
  rw [Host.HoldsModifier]
  decide

/-- A byte that neither heads a row nor meets the zero row writes nothing. -/
theorem reportsFor_eq_nil_iff {b : Byte} :
    reportsFor b = [] ↔ b ∉ mappedBytes ∧ b ≠ 0 := by
  constructor
  · intro silent
    constructor
    · intro mapped
      obtain ⟨row, _, _, writes⟩ := reportsFor_of_mapped mapped
      simp [writes] at silent
    · rintro rfl
      have writes := reportsFor_zero.symm.trans silent
      exact List.cons_ne_nil _ _ writes
  · rintro ⟨unmapped, nonzero⟩
    exact reportsFor_of_unmapped unmapped nonzero

/-- The last report main sends for a byte is the release report. -/
theorem reportsFor_end (b : Byte) :
    reportsFor b = [] ∨
      ∃ sent, reportsFor b = sent ++ [clearCommand] := by
  rw [reportsFor]
  rcases translateInput b clearedBuffer with ⟨found, buffer⟩
  cases found with
  | false =>
      exact .inl rfl
  | true =>
      exact .inr ⟨[buffer], rfl⟩

/-- Whatever was consumed, the last report sent is the release report. -/
theorem flatMap_reportsFor_end (consumed : List Byte) :
    consumed.flatMap reportsFor = [] ∨
      ∃ sent, consumed.flatMap reportsFor = sent ++ [clearCommand] := by
  induction consumed with
  | nil =>
      exact .inl rfl
  | cons b rest inductionHypothesis =>
      rw [List.flatMap_cons]
      rcases inductionHypothesis with silent | ⟨sent, ends⟩
      · rw [silent, List.append_nil]
        exact reportsFor_end b
      · exact .inr ⟨reportsFor b ++ sent, by rw [ends, List.append_assoc]⟩

/-- The host is neutral only while no report has been sent at all. -/
theorem neutral_after_iff (consumed : List Byte) :
    (Host.after (consumed.flatMap bytesFor)).Neutral ↔
      ∀ b ∈ consumed, b ∉ mappedBytes ∧ b ≠ 0 := by
  have silentIff :
      (∀ b ∈ consumed, b ∉ mappedBytes ∧ b ≠ 0) ↔
        consumed.flatMap reportsFor = [] := by
    rw [List.flatMap_eq_nil_iff]
    exact forall₂_congr (fun b _ => reportsFor_eq_nil_iff.symm)
  have asReports :
      consumed.flatMap bytesFor =
        (consumed.flatMap reportsFor).flatMap Vector.toList :=
    List.flatMap_assoc.symm
  rw [silentIff, asReports]
  constructor
  · intro neutral
    rcases flatMap_reportsFor_end consumed with silent | ⟨sent, ends⟩
    · exact silent
    · rw [ends, Host.after_concat] at neutral
      exact (neutral.1 1 receive_clearCommand).elim
  · intro silent
    rw [silent, List.flatMap_nil, Host.after_nil, Host.neutral_iff]
    exact ⟨rfl, rfl⟩

/-- At a loop head with everything transmitted the host got all of it. -/
theorem Machine.AfterBegin.sent_at_loopHead
    {begun m : Machine}
    {actions : List Action}
    {events : List Event}
    (atBegin : begun.AfterBegin)
    (ran : begun.run? actions = some (m, events))
    (atLoopHead : m.pc = .here .loopHead)
    (transmitted : m.tx.Empty) :
    events.filterMap Event.udr? =
      (events.filterMap Event.consumed?).flatMap bytesFor := by
  have nothingOwed : m.owed = [] := by
    rw [Machine.owed, atLoopHead]
    rfl
  exact (atBegin.follows.run? ran).endToEnd.sent_of_transmitted
    nothingOwed transmitted

/--
The host is neutral after every prefix of the input exactly when main never
writes a report; and at a loop head with everything transmitted it is neutral
exactly when nothing consumed so far made main write one.
-/
theorem host_neutral_iff
    (buffer : KeyboardBuffer)
    (consumed : List Byte) :
    ((∀ past, past <+: consumed →
        (Host.after (written buffer past)).Neutral) ↔
      ∀ b ∈ consumed, b ∉ mappedBytes ∧ b ≠ 0) ∧
      ∀ (begun m : Machine) (actions : List Action) (events : List Event),
        begun.AfterBegin →
        begun.run? actions = some (m, events) →
        m.pc = .here .loopHead →
        m.tx.Empty →
          ((Host.after (events.filterMap Event.udr?)).Neutral ↔
            ∀ b ∈ events.filterMap Event.consumed?,
              b ∉ mappedBytes ∧ b ≠ 0) := by
  refine ⟨⟨?_, ?_⟩, ?_⟩
  · intro neutral
    have atEnd := neutral consumed List.prefix_rfl
    rw [written_eq_flatMap] at atEnd
    exact (neutral_after_iff consumed).mp atEnd
  · intro silent past isPrefix
    rw [written_eq_flatMap]
    exact (neutral_after_iff past).mpr
      (fun b member => silent b (isPrefix.subset member))
  · intro begun m actions events atBegin ran atLoopHead transmitted
    rw [atBegin.sent_at_loopHead ran atLoopHead transmitted]
    exact neutral_after_iff _

/-- A byte that no row maps, and the first loop head after power-on. -/
theorem host_neutral_iff_powerOn :
    (∀ past, past <+: [(0x80 : Byte)] →
        (Host.after (written clearedBuffer past)).Neutral) ∧
      ∃ (n : Nat) (m : Machine) (events : List Event),
        (Machine.powerOn.mainSteps 81).run? (List.replicate n .main) =
            some (m, events) ∧
          m.pc = .here .loopHead ∧
            ((Host.after (events.filterMap Event.udr?)).Neutral ↔
              ∀ b ∈ events.filterMap Event.consumed?,
                b ∉ mappedBytes ∧ b ≠ 0) := by
  have both := host_neutral_iff clearedBuffer [(0x80 : Byte)]
  refine ⟨both.1.mpr (by decide +kernel), ?_⟩
  obtain ⟨n, atLoopHead, same⟩ :=
    Machine.afterBegin_powerOn.exists_loopHead
  obtain ⟨events, ran⟩ :=
    Machine.run?_mainSteps n (Machine.powerOn.mainSteps 81)
  have txEmpty : ((Machine.powerOn.mainSteps 81).mainSteps n).tx.Empty := by
    rw [same.tx]
    exact Machine.afterBegin_powerOn.txEmpty
  exact ⟨n, _, events, ran, atLoopHead,
    both.2 _ _ _ events Machine.afterBegin_powerOn ran atLoopHead txEmpty⟩

/-- After a single `a` the host still holds Left Shift. -/
theorem host_holds_shift_after_a :
    (Host.after
        (written clearedBuffer [BootKeyboard.ascii 'a'])).HoldsModifier 1 ∧
      ¬ ∀ past, past <+: [BootKeyboard.ascii 'a'] →
          (Host.after (written clearedBuffer past)).Neutral := by
  have holds :
      (Host.after
        (written clearedBuffer
          [BootKeyboard.ascii 'a'])).HoldsModifier 1 := by
    rw [Host.HoldsModifier]
    decide +kernel
  exact ⟨holds, fun neutral =>
    (neutral _ List.prefix_rfl).1 1 holds⟩

end KeyboardEmulator
