import KeyboardEmulator.KeyboardMapping

namespace KeyboardEmulator

open BootKeyboard (Byte ascii typed typedFrom pressed usQwerty)

/-!
# What the written reports type, hold and leak

The written stream is the concatenation of the streams of the consumed bytes,
so every result here is one case analysis on a byte (heads a written row, is
the zero byte, or neither) carried along the list.
-/

/-- The bytes whose typed symbol is the byte itself. -/
def typable (b : Byte) : Bool :=
  (0x20 ≤ b && b ≤ 0x7E) ||
    [0x01, 0x03, 0x04, 0x08, 0x09, 0x0D, 0x14, 0x16,
      0x1A, 0x1B, 0x1C, 0x1D, 0x1E, 0x1F].contains b

/-- A row types its own code, with a real usage, on the US-QWERTY layout. -/
def rowAgrees (row : KeyRow) : Bool :=
  usQwerty row.modifier row.usage == some row.received &&
    row.usage != 0 && typable row.received

private theorem keyboardMapRows_all_agree :
    keyboardMapRows.all rowAgrees = true := by
  decide +kernel

private theorem typable_all_mapped :
    (List.range 256).all
        (fun code =>
          !typable (BitVec.ofNat 8 code) ||
            mappedBytes.contains (BitVec.ofNat 8 code)) =
      true := by
  decide +kernel

/-- Every written row agrees with the US-QWERTY layout and presses a key. -/
theorem keyboardMapRows_agree
    {row : KeyRow}
    (member : row ∈ keyboardMapRows) :
    usQwerty row.modifier row.usage = some row.received ∧
      row.usage ≠ 0 ∧ typable row.received = true := by
  have agrees := List.all_eq_true.mp keyboardMapRows_all_agree
    row member
  simpa [rowAgrees, and_assoc] using agrees

/-- The written rows cover exactly the typable bytes. -/
theorem typable_iff_mapped {b : Byte} :
    typable b = true ↔ b ∈ mappedBytes := by
  constructor
  · intro isTypable
    have covered := List.all_eq_true.mp typable_all_mapped
      b.toNat (List.mem_range.mpr b.isLt)
    simpa [isTypable] using covered
  · intro mapped
    obtain ⟨row, member, code⟩ := List.mem_map.mp mapped
    rw [← code]
    exact (keyboardMapRows_agree member).2.2

/-- No written row heads the zero byte. -/
theorem zero_not_mapped : (0 : Byte) ∉ mappedBytes := by
  decide +kernel

theorem typable_zero : typable 0 = false := by
  decide

theorem usages_clearCommand :
    clearCommand.usages = [0, 0, 0, 0, 0, 0] :=
  rfl

/-- What one consumed byte writes, by the row it meets. -/
theorem reportsFor_cases (b : Byte) :
    (∃ row ∈ keyboardMapRows,
        row.received = b ∧
          reportsFor b =
            [BootKeyboard.Report.single row.modifier row.usage, clearCommand]) ∨
      (b = 0 ∧
        reportsFor b = [BootKeyboard.Report.released, clearCommand]) ∨
      (b ∉ mappedBytes ∧ b ≠ 0 ∧ reportsFor b = []) := by
  by_cases mapped : b ∈ mappedBytes
  · exact .inl (reportsFor_of_mapped mapped)
  · by_cases zero : b = 0
    · subst zero
      exact .inr (.inl ⟨rfl, reportsFor_zero⟩)
    · exact .inr (.inr
        ⟨mapped, zero, reportsFor_of_unmapped mapped zero⟩)

/-! ## Typed text -/

/--
A key report and its release type one symbol, and leave no usage pressed for
the report that follows.
-/
theorem typedFrom_pair
    {before : BootKeyboard.Report}
    (empty : before.usages = [0, 0, 0, 0, 0, 0])
    {modifier usage : Byte}
    (isKey : usage ≠ 0)
    (rest : List BootKeyboard.Report) :
    typedFrom before
        (BootKeyboard.Report.single modifier usage ::
          clearCommand :: rest) =
      usQwerty modifier usage :: typedFrom clearCommand rest := by
  have keyPress :
      pressed before (BootKeyboard.Report.single modifier usage) =
        [usage] :=
    BootKeyboard.pressed_single empty isKey
  have release :
      pressed (BootKeyboard.Report.single modifier usage)
        clearCommand = [] :=
    BootKeyboard.pressed_eq_nil _ usages_clearCommand
  simp only [typedFrom, keyPress, release, List.map_nil,
    List.nil_append, List.map_cons, List.singleton_append]
  rfl

/-- The empty report of the zero row types nothing. -/
theorem typedFrom_zero_row
    (before : BootKeyboard.Report)
    (rest : List BootKeyboard.Report) :
    typedFrom before
        (BootKeyboard.Report.released :: clearCommand :: rest) =
      typedFrom clearCommand rest := by
  have nothing :
      pressed before BootKeyboard.Report.released = [] :=
    BootKeyboard.pressed_eq_nil before rfl
  have release :
      pressed BootKeyboard.Report.released clearCommand = [] :=
    BootKeyboard.pressed_eq_nil _ usages_clearCommand
  simp [typedFrom, nothing, release]

/-- The induction over the stream carries a host with no usage pressed. -/
theorem typedFrom_flatMap_reportsFor
    (consumed : List Byte)
    {before : BootKeyboard.Report}
    (empty : before.usages = [0, 0, 0, 0, 0, 0]) :
    typedFrom before (consumed.flatMap reportsFor) =
      (consumed.filter typable).map some := by
  induction consumed generalizing before with
  | nil =>
      rfl
  | cons b rest inductionHypothesis =>
      have restTyped := inductionHypothesis usages_clearCommand
      rw [List.flatMap_cons]
      rcases reportsFor_cases b with
          ⟨row, member, code, writes⟩ | ⟨zero, writes⟩ |
            ⟨unmapped, _, writes⟩
      · obtain ⟨agrees, isKey, isTypable⟩ :=
          keyboardMapRows_agree member
        rw [code] at agrees isTypable
        rw [writes, List.cons_append, List.cons_append,
          List.nil_append, typedFrom_pair empty isKey, agrees,
          restTyped]
        simp [isTypable]
      · rw [writes, List.cons_append, List.cons_append,
          List.nil_append, typedFrom_zero_row, restTyped, zero,
          List.filter_cons_of_neg (by rw [typable_zero]; decide)]
      · have notTypable : typable b = false := by
          rw [← Bool.not_eq_true, typable_iff_mapped]
          exact unmapped
        rw [writes, List.nil_append, inductionHypothesis empty]
        simp [notTypable]

/--
The symbols typed by the written stream are the consumed typable bytes, in
order and with multiplicity, whatever the buffer held before.
-/
theorem typed_written
    (buffer : KeyboardBuffer)
    (consumed : List Byte) :
    typed (written buffer consumed) =
      (consumed.filter typable).map some := by
  rw [typed, reports_written]
  exact typedFrom_flatMap_reportsFor consumed rfl

example :
    typed (written clearedBuffer [ascii 'a', ascii 'a', 0x00, ascii 'B']) =
      [some (ascii 'a'), some (ascii 'a'), some (ascii 'B')] := by
  decide +kernel

/-! ## Unmapped bytes -/

theorem bytesFor_of_unmapped
    {b : Byte}
    (unmapped : b ∉ mappedBytes)
    (nonzero : b ≠ 0) :
    bytesFor b = [] := by
  rw [bytesFor, reportsFor_of_unmapped unmapped nonzero]
  rfl

/-- Without zero bytes only the mapped bytes write anything. -/
theorem flatMap_bytesFor_filter
    {consumed : List Byte}
    (noZero : 0 ∉ consumed) :
    consumed.flatMap bytesFor =
      (consumed.filter (· ∈ mappedBytes)).flatMap bytesFor := by
  induction consumed with
  | nil =>
      rfl
  | cons b rest inductionHypothesis =>
      simp only [List.mem_cons, not_or] at noZero
      have restSame := inductionHypothesis noZero.2
      by_cases mapped : b ∈ mappedBytes
      · simp [mapped, restSame]
      · simp [mapped, restSame,
          bytesFor_of_unmapped mapped (Ne.symm noZero.1)]

/-- Filtering never makes the stream longer; a dropped zero byte shortens it. -/
theorem length_flatMap_bytesFor_filter_le (consumed : List Byte) :
    ((consumed.filter (· ∈ mappedBytes)).flatMap bytesFor).length ≤
      (consumed.flatMap bytesFor).length := by
  induction consumed with
  | nil =>
      simp
  | cons b rest inductionHypothesis =>
      by_cases mapped : b ∈ mappedBytes
      · simpa [mapped] using inductionHypothesis
      · simp only [mapped, decide_false, Bool.false_eq_true,
          not_false_eq_true, List.filter_cons_of_neg,
          List.flatMap_cons, List.length_append]
        omega

theorem length_flatMap_bytesFor_filter_lt
    {consumed : List Byte}
    (hasZero : 0 ∈ consumed) :
    ((consumed.filter (· ∈ mappedBytes)).flatMap bytesFor).length <
      (consumed.flatMap bytesFor).length := by
  induction consumed with
  | nil =>
      simp at hasZero
  | cons b rest inductionHypothesis =>
      have restLe := length_flatMap_bytesFor_filter_le rest
      rcases List.mem_cons.mp hasZero with isHead | inRest
      · have zeroLength : (bytesFor 0).length = 16 := by
          rw [bytesFor, reportsFor_zero]
          rfl
        rw [← isHead]
        simp only [zero_not_mapped, decide_false, Bool.false_eq_true,
          not_false_eq_true, List.filter_cons_of_neg,
          List.flatMap_cons, List.length_append, zeroLength]
        omega
      · have restLt := inductionHypothesis inRest
        by_cases mapped : b ∈ mappedBytes
        · simpa [mapped] using restLt
        · simp only [mapped, decide_false, Bool.false_eq_true,
            not_false_eq_true, List.filter_cons_of_neg,
            List.flatMap_cons, List.length_append]
          omega

/-- The key report of a byte, if it is translated at all. -/
def keyReport? (b : Byte) : Option KeyboardBuffer :=
  let translated := translateInput b clearedBuffer
  if translated.1 then some translated.2 else none

theorem keyReports_eq_filterMap
    (buffer : KeyboardBuffer)
    (consumed : List Byte) :
    keyReports buffer consumed = consumed.filterMap keyReport? := by
  induction consumed generalizing buffer with
  | nil =>
      rfl
  | cons b rest inductionHypothesis =>
      rw [keyReports, inductionHypothesis, List.filterMap_cons,
        keyReport?, mainLoopBody]
      cases (translateInput b clearedBuffer).1 <;> simp

theorem keyReport?_eq_head (b : Byte) :
    keyReport? b = (reportsFor b).head? := by
  rw [keyReport?, reportsFor]
  rcases translateInput b clearedBuffer with ⟨found, buffer⟩
  cases found <;> rfl

/-- A key report other than the one of the zero row presses a usage. -/
theorem keyReport?_usage
    {b : Byte}
    (nonzero : b ≠ 0)
    {report : KeyboardBuffer}
    (reported : keyReport? b = some report) :
    report.firstUsage ≠ 0 := by
  rw [keyReport?_eq_head] at reported
  rcases reportsFor_cases b with
      ⟨row, member, _, writes⟩ | ⟨zero, _⟩ | ⟨_, _, writes⟩
  · rw [writes, List.head?_cons, Option.some.injEq] at reported
    rw [← reported]
    exact (keyboardMapRows_agree member).2.1
  · exact (nonzero zero).elim
  · simp [writes] at reported

/--
Removing the bytes that head no written row leaves the stream unchanged, and
every key report presses a usage, exactly when no zero byte was consumed: the
zero byte meets the declared row without an initialiser.
-/
theorem written_eq_written_mapped_iff
    (buffer : KeyboardBuffer)
    (consumed : List Byte) :
    (written buffer consumed =
        written buffer (consumed.filter (· ∈ mappedBytes)) ∧
      ∀ report ∈ keyReports buffer consumed, report.firstUsage ≠ 0) ↔
      0 ∉ consumed := by
  rw [written_eq_flatMap, written_eq_flatMap]
  constructor
  · rintro ⟨same, _⟩ hasZero
    have shorter := length_flatMap_bytesFor_filter_lt hasZero
    rw [← same] at shorter
    exact Nat.lt_irrefl _ shorter
  · intro noZero
    refine ⟨flatMap_bytesFor_filter noZero, ?_⟩
    intro report member
    rw [keyReports_eq_filterMap, List.mem_filterMap] at member
    obtain ⟨b, consumedByte, reported⟩ := member
    exact keyReport?_usage
      (fun zero => noZero (zero ▸ consumedByte)) reported

/-- A single zero byte writes sixteen bytes and a key report without usage. -/
theorem written_zero_byte :
    ¬ (written clearedBuffer [0x00] =
          written clearedBuffer
            ([0x00].filter (· ∈ mappedBytes))) ∧
      ¬ (∀ report ∈ keyReports clearedBuffer [0x00],
          report.firstUsage ≠ 0) := by
  have length :=
    length_flatMap_bytesFor_filter_lt (List.mem_singleton_self 0x00)
  constructor
  · intro same
    rw [written_eq_flatMap, written_eq_flatMap] at same
    rw [← same] at length
    exact Nat.lt_irrefl _ length
  · intro allPress
    have emptyReport :
        keyReports clearedBuffer [0x00] =
          [BootKeyboard.Report.released] := by
      decide +kernel
    exact allPress BootKeyboard.Report.released
      (by rw [emptyReport]; exact List.mem_singleton_self _) rfl

end KeyboardEmulator
