import KeyboardEmulator.HeapString
import KeyboardEmulator.StreamFind

namespace KeyboardEmulator

/-!
# Records of a stream

A client that calls `readBytesUntil` again and again reads records.  It gets
those that were sent, and leaves what follows them, if and only if each is
shorter than its buffer: a record that fills the buffer leaves its terminator
behind, and the client takes that for the end of an empty record.
`readStringUntil` has no such limit, but skips what it has no memory for.
-/

namespace Stream

/--
`readBytesUntil(terminator, buffer, length)`: what it puts into the buffer, and
the stream behind it.
-/
def readBytesUntil (terminator : BitVec 8) :
    Nat → Stream → List (BitVec 8) × Stream
  | 0, stream => ([], stream)
  | length + 1, stream =>
      let (c, rest) := timedRead stream
      if c < 0 ∨ c = terminator.toInt then
        ([], rest)
      else
        let (buffer, left) := readBytesUntil terminator length rest
        (BitVec.ofInt 8 c :: buffer, left)

/-- A client that reads as many records, each into a buffer of `length`. -/
def readRecords (terminator : BitVec 8) (length : Nat) :
    Nat → Stream → List (List (BitVec 8)) × Stream
  | 0, stream => ([], stream)
  | count + 1, stream =>
      let (record, rest) := readBytesUntil terminator length stream
      let (records, left) := readRecords terminator length count rest
      (record :: records, left)

/-- What a client sends that ends each record with the terminator. -/
def sentRecords
    (terminator : BitVec 8)
    (records : List (List (BitVec 8))) : Stream :=
  records.flatMap (fun record => record ++ [terminator])

section OneRecord

variable {terminator b : BitVec 8} {length : Nat} {stream rest : Stream}
  {record : List (BitVec 8)}

/-- The terminator ends a record, unless it is negative as a `char`. -/
theorem readBytesUntil_terminator (positive : terminator.msb = false) :
    readBytesUntil terminator (length + 1) (terminator :: rest) =
      ([], rest) := by
  have ends : (terminator.toNat : Int) = terminator.toInt :=
    ((toInt_eq_toNat_iff _ _).mpr ⟨positive, rfl⟩).symm
  rw [readBytesUntil]
  exact if_pos (Or.inr ends)

/-- Any other character goes into the buffer. -/
theorem readBytesUntil_other
    (other : terminator.msb = false → b ≠ terminator) :
    readBytesUntil terminator (length + 1) (b :: rest) =
      (b :: (readBytesUntil terminator length rest).1,
        (readBytesUntil terminator length rest).2) := by
  have goesOn :
      ¬ ((b.toNat : Int) < 0 ∨ (b.toNat : Int) = terminator.toInt) := by
    rintro (negative | ends)
    · omega
    · obtain ⟨positive, same⟩ := (toInt_eq_toNat_iff _ _).mp ends.symm
      exact other positive same.symm
  have stored : BitVec.ofInt 8 (b.toNat : Int) = b := by
    rw [BitVec.ofInt_natCast, BitVec.ofNat_toNat, BitVec.setWidth_eq]
  rw [readBytesUntil]
  refine (if_neg goesOn).trans ?_
  rw [stored]

theorem readBytesUntil_record
    (positive : terminator.msb = false)
    (clean : terminator ∉ record)
    (shorter : record.length < length) :
    readBytesUntil terminator length (record ++ terminator :: rest) =
      (record, rest) := by
  induction record generalizing length with
  | nil =>
      obtain ⟨smaller, rfl⟩ :=
        Nat.exists_eq_succ_of_ne_zero (Nat.ne_zero_of_lt shorter)
      exact readBytesUntil_terminator positive
  | cons c record inductionHypothesis =>
      obtain ⟨notFirst, notLater⟩ := not_or.mp (List.mem_cons.not.mp clean)
      obtain ⟨smaller, rfl⟩ :=
        Nat.exists_eq_succ_of_ne_zero (Nat.ne_zero_of_lt shorter)
      rw [List.cons_append,
        readBytesUntil_other (fun _ => Ne.symm notFirst),
        inductionHypothesis notLater (Nat.lt_of_succ_lt_succ shorter)]

/--
A record that does not fit, or one whose terminator is negative, is read
without its terminator if at all.
-/
theorem rest_of_unfit
    (clean : terminator ∉ record)
    (unfit : terminator.msb = false → length ≤ record.length)
    (isRecord :
      (readBytesUntil terminator length
        (record ++ terminator :: rest)).1 = record) :
    (readBytesUntil terminator length (record ++ terminator :: rest)).2 =
      terminator :: rest := by
  induction length generalizing record with
  | zero =>
      rw [readBytesUntil] at isRecord ⊢
      rw [← isRecord, List.nil_append]
  | succ length inductionHypothesis =>
      cases record with
      | nil =>
          have negative : terminator.msb = false → terminator ≠ terminator :=
            fun positive => absurd (unfit positive) (Nat.not_succ_le_zero _)
          rw [List.nil_append, readBytesUntil_other negative] at isRecord
          contradiction
      | cons c record =>
          obtain ⟨notFirst, notLater⟩ := not_or.mp (List.mem_cons.not.mp clean)
          rw [List.cons_append,
            readBytesUntil_other (fun _ => Ne.symm notFirst)] at isRecord ⊢
          exact inductionHypothesis notLater
            (fun positive => Nat.le_of_succ_le_succ (unfit positive))
            (List.cons.inj isRecord).2

/-- A call takes at most one character more than it puts into the buffer. -/
theorem length_readBytesUntil (length : Nat) (stream : Stream) :
    stream.length ≤
      (readBytesUntil terminator length stream).1.length + 1 +
        (readBytesUntil terminator length stream).2.length := by
  induction length generalizing stream with
  | zero =>
      exact Nat.le_add_left _ _
  | succ length inductionHypothesis =>
      cases stream with
      | nil =>
          exact Nat.zero_le _
      | cons c rest =>
          by_cases ends : terminator.msb = false ∧ c = terminator
          · obtain ⟨positive, rfl⟩ := ends
            rw [readBytesUntil_terminator positive]
            exact Nat.le_of_eq (Nat.add_comm _ _)
          · have taken := inductionHypothesis rest
            rw [readBytesUntil_other
              (fun positive same => ends ⟨positive, same⟩)]
            simp only [List.length_cons]
            omega

end OneRecord

section Records

variable {terminator : BitVec 8}

theorem length_readRecords
    (length count : Nat)
    (stream : Stream) :
    stream.length ≤
      (sentRecords terminator
          (readRecords terminator length count stream).1).length +
        (readRecords terminator length count stream).2.length := by
  induction count generalizing stream with
  | zero =>
      exact Nat.le_add_left _ _
  | succ count inductionHypothesis =>
      have first := @length_readBytesUntil terminator length stream
      have later :=
        inductionHypothesis (readBytesUntil terminator length stream).2
      simp only [readRecords, sentRecords, List.flatMap_cons,
        List.length_append, List.length_singleton] at later ⊢
      omega

/--
A client gets the records that were sent to it, and leaves what follows them,
if and only if each is shorter than its buffer, and the terminator is not
negative as a `char`.
-/
theorem readRecords_iff
    {records : List (List (BitVec 8))}
    (clean : ∀ record ∈ records, terminator ∉ record)
    (length : Nat)
    (rest : Stream) :
    readRecords terminator length records.length
        (sentRecords terminator records ++ rest) =
        (records, rest) ↔
      ∀ record ∈ records,
        terminator.msb = false ∧ record.length < length := by
  induction records with
  | nil =>
      simp [readRecords, sentRecords]
  | cons record records inductionHypothesis =>
      obtain ⟨cleanFirst, cleanLater⟩ := List.forall_mem_cons.mp clean
      have text :
          sentRecords terminator (record :: records) ++ rest =
            record ++
              terminator :: (sentRecords terminator records ++ rest) := by
        simp [sentRecords]
      rw [List.forall_mem_cons, ← inductionHypothesis cleanLater, text,
        List.length_cons, readRecords]
      by_cases fits : terminator.msb = false ∧ record.length < length
      · rw [readBytesUntil_record fits.1 cleanFirst fits.2]
        simp [fits, Prod.ext_iff]
      · -- then the terminator is still there when the next record is read
        refine iff_of_false (fun same => ?_) (fun both => fits both.1)
        obtain ⟨isRecords, isRest⟩ := Prod.mk.inj same
        obtain ⟨isFirst, isLater⟩ := List.cons.inj isRecords
        have left :=
          rest_of_unfit cleanFirst
            (fun positive => Nat.le_of_not_lt (fun shorter =>
              fits ⟨positive, shorter⟩)) isFirst
        have tooMuch :=
          @length_readRecords terminator length records.length
            (terminator :: (sentRecords terminator records ++ rest))
        rw [left] at isLater isRest
        rw [isLater, isRest, List.length_cons, List.length_append] at tooMuch
        omega

/-- Two lines, and what is sent behind them. -/
theorem readRecords_iff_twoLines :
    readRecords 0x0a 4 2 [0x31, 0x32, 0x33, 0x0a, 0x34, 0x0a, 0x35] =
      ([[0x31, 0x32, 0x33], [0x34]], [0x35]) :=
  (@readRecords_iff 0x0a [[0x31, 0x32, 0x33], [0x34]] (by decide) 4
    [0x35]).mpr (by decide)

end Records

/-! ## Strings -/

/-- The loop of `readStringUntil`; `memory` answers its `n`-th allocation. -/
def readStringFrom
    (terminator : BitVec 8)
    (memory : Nat → HeapString.Memory) :
    Nat → HeapString → Stream → Option (HeapString × Stream)
  | _, ret, [] =>
      -- `timedRead` returns -1
      some (ret, [])
  | n, ret, c :: rest =>
      if (c.toNat : Int) = terminator.toInt then
        some (ret, rest)
      else
        (ret.concatChar c (memory n)).bind (fun appended =>
          readStringFrom terminator memory (n + 1) appended.1 rest)

/-- `readStringUntil(terminator)`, and the stream behind it. -/
def readStringUntil
    (terminator : BitVec 8)
    (memory : Nat → HeapString.Memory)
    (stream : Stream) : Option (HeapString × Stream) :=
  -- `String ret;` is `String ret("");`, which allocates
  (HeapString.init.copy [] (memory 0)).bind (fun ret =>
    readStringFrom terminator memory 1 ret.1 stream)

section Strings

variable {terminator : BitVec 8} {record : List (BitVec 8)}

/-- A client that appends these characters one by one. -/
def appendCalls (memory : Nat → HeapString.Memory) :
    Nat → List (BitVec 8) → List (HeapString.Call × HeapString.Memory)
  | _, [] => []
  | n, c :: record =>
      (.concatChar c, memory n) :: appendCalls memory (n + 1) record

/-- What `readStringUntil` makes of a record. -/
def stringOf
    (memory : Nat → HeapString.Memory)
    (record : List (BitVec 8)) : Option HeapString.Text :=
  (HeapString.textAfter none
    ((.assign [], memory 0) :: appendCalls memory 1 record)).1

theorem readStringFrom_holds
    (positive : terminator.msb = false)
    (clean : terminator ∉ record)
    (noZero : 0 ∉ record)
    (memory : Nat → HeapString.Memory)
    (rest : Stream)
    {ret : HeapString}
    {text : Option HeapString.Text}
    (holds : ret.Holds text)
    (n : Nat) :
    ∃ last,
      readStringFrom terminator memory n ret (record ++ terminator :: rest) =
          some (last, rest) ∧
        last.Holds
          (HeapString.textAfter text (appendCalls memory n record)).1 := by
  induction record generalizing ret text n with
  | nil =>
      have ends : (terminator.toNat : Int) = terminator.toInt :=
        ((toInt_eq_toNat_iff _ _).mpr ⟨positive, rfl⟩).symm
      exact ⟨ret, if_pos ends, holds⟩
  | cons c record inductionHypothesis =>
      obtain ⟨notFirst, notLater⟩ := not_or.mp (List.mem_cons.not.mp clean)
      obtain ⟨firstSet, laterSet⟩ := not_or.mp (List.mem_cons.not.mp noZero)
      have goesOn : ¬ (c.toNat : Int) = terminator.toInt := fun ends =>
        notFirst ((toInt_eq_toNat_iff _ _).mp ends.symm).2
      obtain ⟨next, appends, held⟩ :=
        @HeapString.Holds.call? ret text holds (.concatChar c)
          (Ne.symm firstSet) (memory n)
      obtain ⟨last, reads, heldLast⟩ :=
        inductionHypothesis notLater laterSet held (n + 1)
      refine ⟨last, ?_, heldLast⟩
      rw [List.cons_append, readStringFrom, if_neg goesOn]
      change (ret.call? (memory n) (.concatChar c)).bind _ = _
      rw [appends, Option.bind_some, reads]

/-- Each character is appended or skipped. -/
theorem appendCalls_sublist
    (memory : Nat → HeapString.Memory)
    (text : Option HeapString.Text)
    (record : List (BitVec 8))
    (n : Nat) :
    ∃ added,
      HeapString.charsOf
          (HeapString.textAfter text (appendCalls memory n record)).1 =
        HeapString.charsOf text ++ added ∧
          added.Sublist record := by
  induction record generalizing text n with
  | nil =>
      exact ⟨[], (List.append_nil _).symm, .refl _⟩
  | cons c record inductionHypothesis =>
      let next := (HeapString.Call.apply text (memory n) (.concatChar c)).1
      obtain ⟨added, makes, among⟩ := inductionHypothesis next (n + 1)
      obtain kept | skipped :
          HeapString.charsOf next = HeapString.charsOf text ++ [c] ∨
            HeapString.charsOf next = HeapString.charsOf text :=
        HeapString.charsOf_append text [c] (memory n)
      · refine ⟨c :: added, ?_, among.cons_cons c⟩
        rw [kept, List.append_assoc] at makes
        exact makes
      · refine ⟨added, ?_, among.cons c⟩
        rw [skipped] at makes
        exact makes

/-- With memory for all of them none is skipped. -/
theorem appendCalls_all
    {memory : Nat → HeapString.Memory}
    (allocates : ∀ n, (memory n).isSome = true)
    {text : HeapString.Text}
    (fits : text.chars.length + record.length < sramBytes)
    (n : Nat) :
    (HeapString.textAfter (some text) (appendCalls memory n record)).1.map
        HeapString.Text.chars =
      some (text.chars ++ record) := by
  induction record generalizing text n with
  | nil =>
      rw [List.append_nil]
      rfl
  | cons c record inductionHypothesis =>
      rw [List.length_cons] at fits
      obtain ⟨capacity, appends⟩ :=
        @HeapString.append_of_allocates (memory n) text [c] (allocates n)
          (by rw [List.length_singleton]; omega)
      have later :=
        @inductionHypothesis ⟨text.chars ++ [c], capacity⟩
          (by
            rw [List.length_append, List.length_singleton]
            omega)
          (n + 1)
      rw [List.append_assoc] at later
      rw [appendCalls, HeapString.textAfter, HeapString.Call.apply, appends]
      exact later

/-- `String("")`, if there is memory for it. -/
theorem assign_nil (memory : HeapString.Memory) :
    (HeapString.Call.apply none memory (.assign [])).1 =
      if memory.gives 1 then some ⟨[], 0⟩ else none := by
  have made :
      HeapString.Text.withRoom none 0 memory =
        if memory.gives 1 then some ⟨[], 0⟩ else none :=
    rfl
  rw [HeapString.Call.apply, List.length_nil, made]
  by_cases gives : memory.gives 1 = true
  · rw [if_pos gives]
    rfl
  · rw [if_neg gives]

theorem stringOf_eq
    (memory : Nat → HeapString.Memory)
    (record : List (BitVec 8)) :
    stringOf memory record =
      (HeapString.textAfter
        (if (memory 0).gives 1 then some ⟨[], 0⟩ else none)
        (appendCalls memory 1 record)).1 := by
  rw [stringOf, HeapString.textAfter, ← assign_nil]

/--
`readStringUntil` takes a record and its terminator off the stream, and returns
the record without the characters for which it had no memory.
-/
theorem readStringUntil_holds
    (positive : terminator.msb = false)
    (clean : terminator ∉ record)
    (noZero : 0 ∉ record)
    (memory : Nat → HeapString.Memory)
    (rest : Stream) :
    (∃ ret,
      readStringUntil terminator memory (record ++ terminator :: rest) =
          some (ret, rest) ∧
        ret.Holds (stringOf memory record)) ∧
      (HeapString.charsOf (stringOf memory record)).Sublist record ∧
        (record.length < sramBytes →
          (∀ n, (memory n).isSome = true) →
            (stringOf memory record).map HeapString.Text.chars =
              some record) := by
  obtain ⟨ret, copies, held⟩ :=
    @HeapString.Holds.copy HeapString.init none .null [] List.not_mem_nil
      (by decide) (memory 0)
  obtain ⟨last, reads, heldLast⟩ :=
    readStringFrom_holds positive clean noZero memory rest held 1
  rw [stringOf_eq]
  rw [assign_nil] at heldLast
  refine ⟨⟨last, ?_, heldLast⟩, ?_, fun fits allocates => ?_⟩
  · rw [readStringUntil, copies, Option.bind_some, reads]
  · obtain ⟨added, makes, among⟩ :=
      appendCalls_sublist memory
        (if (memory 0).gives 1 then some ⟨[], 0⟩ else none) record 1
    have empty :
        HeapString.charsOf
          (if (memory 0).gives 1 then some ⟨[], 0⟩ else none) = [] := by
      split <;> rfl
    rw [makes, empty]
    exact among
  · have gives : (memory 0).gives 1 = true := by
      rw [HeapString.Memory.gives, allocates 0]
      rfl
    rw [if_pos gives]
    exact @appendCalls_all record memory allocates ⟨[], 0⟩
      (by rw [List.length_nil, Nat.zero_add]; exact fits) 1

/-- A line, with memory for all of it. -/
theorem readStringUntil_holds_line :
    ∃ ret,
      readStringUntil 0x0a (fun _ => some (fun _ => 0xff))
          [0x31, 0x32, 0x0a, 0x33] =
        some (ret, [0x33]) ∧
          ret.Holds (some ⟨[0x31, 0x32], 2⟩) := by
  obtain ⟨⟨ret, reads, held⟩, -, -⟩ :=
    @readStringUntil_holds 0x0a [0x31, 0x32] (by decide) (by decide)
      (by decide) (fun _ => some (fun _ => 0xff)) [0x33]
  exact ⟨ret, reads, held⟩

end Strings

end Stream

end KeyboardEmulator
