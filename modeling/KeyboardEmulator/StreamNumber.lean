import KeyboardEmulator.StreamFind
import Mathlib.Data.List.TakeWhile
import Mathlib.Data.Nat.Digits.Defs

namespace KeyboardEmulator

/-!
# Printing and parsing numbers

`printNumber` fills a buffer of the size of a `long` in bits from its end.  What
`print` writes of a `long` in base ten `parseInt` reads back, and it leaves the
stream where the number ends.
-/

/-! ## `Print` -/

namespace Print

/-- `*--str` for `char c = n % base`, which is signed. -/
def digitChar (digit : Nat) : BitVec 8 :=
  let c := BitVec.ofNat 8 digit
  if c.toInt < 10 then c + 0x30 else c + 0x41 - 10

/--
The loop of `printNumber`: `str` is what the buffer holds from the pointer on,
with `room` characters before it.  Without room it would write outside.
-/
def digitLoop (base : Nat) :
    Nat → Nat → List (BitVec 8) → Option (List (BitVec 8))
  | 0, _, _ => none
  | room + 1, n, str =>
      let str := digitChar (n % base) :: str
      if n / base ≠ 0 then digitLoop base room (n / base) str else some str

/-- `printNumber(n, base)`: `write` stops at the first zero. -/
def printNumber
    (n : BitVec 32)
    (base : BitVec 8) : Option (List (BitVec 8)) :=
  let base := if base.toNat < 2 then 10 else base.toNat
  (digitLoop base 32 n.toNat []).map (·.takeWhile (· ≠ 0))

/-- `print(n, base)` of a `long`. -/
def print
    (n : BitVec 32)
    (base : BitVec 16) : Option (List (BitVec 8)) :=
  if base = 0 then
    some [n.setWidth 8]
  else if base = 10 then
    if n.msb then
      (printNumber (-n) 10).map (0x2d :: ·)
    else
      printNumber n 10
  else
    printNumber n (base.setWidth 8)

/-- `println(n, base)`. -/
def println
    (n : BitVec 32)
    (base : BitVec 16) : Option (List (BitVec 8)) :=
  (print n base).map (· ++ [0x0d, 0x0a])

/-- The digits of a number as they are written. -/
def numerals (base n : Nat) : List Nat :=
  if n = 0 then [0] else (Nat.digits base n).reverse

theorem numerals_ne_nil (base n : Nat) :
    numerals base n ≠ [] := by
  rw [numerals]
  split
  next =>
    exact List.cons_ne_nil _ _
  next positive =>
    rw [ne_eq, List.reverse_eq_nil_iff]
    exact Nat.digits_ne_nil_iff_ne_zero.mpr positive

theorem lt_of_mem_numerals
    {base n digit : Nat}
    (atLeastTwo : 2 ≤ base)
    (member : digit ∈ numerals base n) :
    digit < base := by
  rw [numerals] at member
  split at member
  next =>
    rw [List.mem_singleton.mp member]
    omega
  next =>
    exact Nat.digits_lt_base atLeastTwo (List.mem_reverse.mp member)

/-- The first digits are those of the quotient. -/
theorem numerals_of_le
    {base n : Nat}
    (atLeastTwo : 2 ≤ base)
    (many : base ≤ n) :
    numerals base n = numerals base (n / base) ++ [n % base] := by
  have quotient : n / base ≠ 0 :=
    Nat.pos_iff_ne_zero.mp (Nat.div_pos many (by omega))
  rw [numerals, numerals, if_neg (by omega), if_neg quotient,
    Nat.digits_def' atLeastTwo (by omega), List.reverse_cons]

theorem numerals_of_lt
    {base n : Nat}
    (few : n < base) :
    numerals base n = [n] := by
  rw [numerals]
  split
  next zero =>
    rw [zero]
  next positive =>
    rw [Nat.digits_of_lt base n positive few]
    rfl

/-- With room for its digits a number is written. -/
theorem digitLoop_eq
    {base room n : Nat}
    (atLeastTwo : 2 ≤ base)
    (fits : n < base ^ room)
    (some' : 0 < room)
    (str : List (BitVec 8)) :
    digitLoop base room n str =
      some ((numerals base n).map digitChar ++ str) := by
  induction room generalizing n str with
  | zero =>
      contradiction
  | succ room inductionHypothesis =>
      rw [digitLoop]
      by_cases few : n < base
      · rw [Nat.div_eq_of_lt few, if_neg (not_not.mpr rfl),
          Nat.mod_eq_of_lt few, numerals_of_lt few]
        rfl
      · have quotient : n / base ≠ 0 :=
          Nat.pos_iff_ne_zero.mp
            (Nat.div_pos (Nat.le_of_not_lt few) (by omega))
        have fits' : n / base < base ^ room := by
          rw [Nat.div_lt_iff_lt_mul (by omega), ← Nat.pow_succ]
          exact fits
        have room' : 0 < room := by
          refine Nat.pos_of_ne_zero (fun none => quotient ?_)
          rw [none, Nat.pow_zero] at fits'
          exact Nat.lt_one_iff.mp fits'
        rw [if_pos quotient, inductionHypothesis fits' room',
          numerals_of_le atLeastTwo (Nat.le_of_not_lt few),
          List.map_append, List.append_assoc]
        rfl

/-- The buffer is large enough for every number in every base. -/
theorem digitLoop_long
    {base : Nat}
    (atLeastTwo : 2 ≤ base)
    (n : BitVec 32) :
    digitLoop base 32 n.toNat [] =
      some ((numerals base n.toNat).map digitChar) := by
  have fits : n.toNat < base ^ 32 :=
    n.isLt.trans_le (Nat.pow_le_pow_left atLeastTwo 32)
  rw [digitLoop_eq atLeastTwo fits (by decide), List.append_nil]

theorem digitChar_ne_zero :
    ∀ digit < 36, digitChar digit ≠ 0 := by
  decide

/-- The digits and letters of the usual bases. -/
theorem printNumber_eq
    {base : BitVec 8}
    (atLeastTwo : 2 ≤ base.toNat)
    (usual : base.toNat ≤ 36)
    (n : BitVec 32) :
    printNumber n base =
      some ((numerals base.toNat n.toNat).map digitChar) := by
  have written :
      ∀ c ∈ (numerals base.toNat n.toNat).map digitChar,
        decide (c ≠ 0) = true := by
    intro c member
    obtain ⟨digit, inNumerals, rfl⟩ := List.mem_map.mp member
    have bound := lt_of_mem_numerals atLeastTwo inNumerals
    exact decide_eq_true (digitChar_ne_zero digit (by omega))
  rw [printNumber, if_neg (by omega), digitLoop_long atLeastTwo,
    Option.map_some, List.takeWhile_eq_self_iff.mpr written]

/-- A `long` in base ten: a sign if there is one, and the magnitude. -/
theorem print_ten (n : BitVec 32) :
    print n 10 =
      some
        (if n.msb then
          0x2d :: (numerals 10 (-n).toNat).map digitChar
        else
          (numerals 10 n.toNat).map digitChar) := by
  rw [print, if_neg (by decide), if_pos rfl]
  split
  · rw [printNumber_eq (by decide) (by decide)]
    rfl
  · rw [printNumber_eq (by decide) (by decide)]
    rfl

/-- `print` never writes outside of its buffer, whatever the base. -/
theorem print_isSome
    (n : BitVec 32)
    (base : BitVec 16) :
    (print n base).isSome = true := by
  have number : ∀ m b, (printNumber m b).isSome = true := by
    intro m b
    have atLeastTwo : 2 ≤ if b.toNat < 2 then 10 else b.toNat := by
      split <;> omega
    rw [printNumber, digitLoop_long atLeastTwo]
    rfl
  rw [print]
  split
  · rfl
  · split
    · split
      · rw [Option.isSome_map, number]
      · rw [number]
    · rw [number]

end Print

/-! ## `Stream` -/

namespace Stream

/-- `LookaheadMode`. -/
inductive LookaheadMode where
  | skipAll
  | skipNone
  | skipWhitespace
  deriving Repr, DecidableEq

/-- `timedPeek()`: the next byte, or -1 on timeout. -/
def timedPeek : Stream → Int
  | [] => -1
  | c :: _ => c.toNat

/-- `c >= '0' && c <= '9'`. -/
def isDigit (c : Int) : Bool :=
  48 ≤ c && c ≤ 57

/-- The cases of the inner `switch` of `peekNextDigit`. -/
def isWhitespace (c : Int) : Bool :=
  c == 0x20 || c == 0x09 || c == 0x0d || c == 0x0a

/-- Whether `peekNextDigit` discards a character. -/
def discards (lookahead : LookaheadMode) (c : Int) : Bool :=
  match lookahead with
  | .skipNone => false
  | .skipWhitespace => isWhitespace c
  | .skipAll => true

/-- `peekNextDigit(lookahead, detectDecimal)`, and what it leaves unread. -/
def peekNextDigit
    (lookahead : LookaheadMode)
    (detectDecimal : Bool) : Stream → Int × Stream
  | [] => (-1, [])
  | b :: rest =>
      let c : Int := b.toNat
      if c = 0x2d || isDigit c || (detectDecimal && c = 0x2e) then
        (c, b :: rest)
      else if discards lookahead c then
        peekNextDigit lookahead detectDecimal rest
      else
        (-1, b :: rest)

/-- The number that `parseInt` has so far; `long` wraps. -/
structure Parsed where
  isNegative : Bool
  value : BitVec 32

/-- What the loop of `parseInt` makes of a character. -/
def Parsed.take (parsed : Parsed) (ignore : Int) (b : BitVec 8) : Parsed :=
  let c : Int := b.toNat
  if c = ignore then
    parsed
  else if c = 0x2d then
    { parsed with isNegative := true }
  else if isDigit c then
    { parsed with value := parsed.value * 10 + b.setWidth 32 - 48 }
  else
    parsed

/--
The loop of `parseInt`.  It never ends where it ignores the -1 of a timeout.
-/
def parseLoop
    (ignore : Int)
    (parsed : Parsed) : Stream → Option (Parsed × Stream)
  | [] => none
  | b :: rest =>
      let parsed := parsed.take ignore b
      let c := timedPeek rest
      if isDigit c || c = ignore then
        parseLoop ignore parsed rest
      else
        some (parsed, rest)

/-- `parseInt(lookahead, ignore)`; the character to ignore is signed. -/
def parseInt
    (lookahead : LookaheadMode)
    (ignore : BitVec 8)
    (stream : Stream) : Option (BitVec 32 × Stream) :=
  let (c, stream) := peekNextDigit lookahead false stream
  if c < 0 then
    some (0, stream)
  else
    (parseLoop ignore.toInt ⟨false, 0⟩ stream).map
      (fun (parsed, rest) =>
        (if parsed.isNegative then -parsed.value else parsed.value, rest))

/-! ## What was printed is parsed -/

theorem toNat_digitChar :
    ∀ digit < 10, (Print.digitChar digit).toNat = 48 + digit := by
  decide

theorem isDigit_digitChar
    {digit : Nat}
    (decimal : digit < 10) :
    isDigit (Print.digitChar digit).toNat = true := by
  rw [toNat_digitChar digit decimal, isDigit, Bool.and_eq_true,
    decide_eq_true_eq, decide_eq_true_eq]
  omega

/-- A digit is appended to the value. -/
theorem value_digitChar
    (value : Nat)
    {digit : Nat}
    (decimal : digit < 10) :
    BitVec.ofNat 32 value * 10 + (Print.digitChar digit).setWidth 32 - 48 =
      BitVec.ofNat 32 (value * 10 + digit) := by
  have isChar :
      (Print.digitChar digit).setWidth 32 = BitVec.ofNat 32 (48 + digit) := by
    rw [← toNat_digitChar digit decimal, BitVec.ofNat_toNat]
  rw [isChar]
  apply BitVec.eq_of_toNat_eq
  simp only [BitVec.toNat_sub, BitVec.toNat_add, BitVec.toNat_mul,
    BitVec.toNat_ofNat, BitVec.reduceToNat]
  omega

/-- The value of a row of digits behind a number. -/
def valueOf (value : Nat) (digits : List Nat) : Nat :=
  digits.foldl (fun value digit => value * 10 + digit) value

theorem valueOf_numerals (n : Nat) :
    valueOf 0 (Print.numerals 10 n) = n := by
  rw [valueOf, Print.numerals]
  split
  next zero =>
    rw [zero]
    rfl
  next =>
    have horner :
        (fun digit value => value * 10 + digit) =
          fun digit value => digit + 10 * value := by
      funext digit value
      rw [Nat.mul_comm, Nat.add_comm]
    rw [List.foldl_reverse, horner]
    exact (Nat.ofDigits_eq_foldr 10 _).symm.trans (Nat.ofDigits_digits 10 n)

/-- The character to ignore is no part of a number. -/
def Ignorable (ignore : Int) : Prop :=
  isDigit ignore = false ∧ ignore ≠ 0x2d

instance (ignore : Int) : Decidable (Ignorable ignore) :=
  inferInstanceAs (Decidable (_ ∧ _))

/-- What follows ends a number. -/
def EndsNumber (ignore : Int) (rest : Stream) : Prop :=
  isDigit (timedPeek rest) = false ∧ timedPeek rest ≠ ignore

theorem take_digitChar
    {ignore : Int}
    (ignorable : Ignorable ignore)
    (isNegative : Bool)
    (value : Nat)
    {digit : Nat}
    (decimal : digit < 10) :
    Parsed.take ⟨isNegative, BitVec.ofNat 32 value⟩ ignore
        (Print.digitChar digit) =
      ⟨isNegative, BitVec.ofNat 32 (value * 10 + digit)⟩ := by
  have isChar := isDigit_digitChar decimal
  have ignoredNot : ((Print.digitChar digit).toNat : Int) ≠ ignore := by
    intro same
    rw [same, ignorable.1] at isChar
    exact Bool.noConfusion isChar
  have signNot : ((Print.digitChar digit).toNat : Int) ≠ 0x2d := by
    rw [toNat_digitChar digit decimal]
    omega
  rw [Parsed.take, if_neg ignoredNot, if_neg signNot, if_pos isChar,
    value_digitChar value decimal]

/-- The loop reads digits up to the end of the number. -/
theorem parseLoop_digits
    {ignore : Int}
    (ignorable : Ignorable ignore)
    (isNegative : Bool)
    (value : Nat)
    {digits : List Nat}
    (nonempty : digits ≠ [])
    (decimal : ∀ digit ∈ digits, digit < 10)
    {rest : Stream}
    (ends : EndsNumber ignore rest) :
    parseLoop ignore ⟨isNegative, BitVec.ofNat 32 value⟩
        (digits.map Print.digitChar ++ rest) =
      some (⟨isNegative, BitVec.ofNat 32 (valueOf value digits)⟩, rest) := by
  induction digits generalizing value with
  | nil =>
      contradiction
  | cons digit digits inductionHypothesis =>
      obtain ⟨first, others⟩ := List.forall_mem_cons.mp decimal
      rw [List.map_cons, List.cons_append, parseLoop,
        take_digitChar ignorable isNegative value first]
      cases digits with
      | nil =>
          have stops :
              ¬ (isDigit (timedPeek rest) ||
                decide (timedPeek rest = ignore)) = true := by
            simp [ends.1, ends.2]
          exact if_neg stops
      | cons next digits =>
          have goesOn :
              isDigit
                (timedPeek
                  ((next :: digits).map Print.digitChar ++ rest)) = true :=
            isDigit_digitChar (others next List.mem_cons_self)
          rw [goesOn, Bool.true_or, if_pos rfl]
          exact inductionHypothesis (value * 10 + digit)
            (List.cons_ne_nil _ _) others

/-- A sign before a digit. -/
theorem parseLoop_sign
    {ignore : Int}
    (ignorable : Ignorable ignore)
    (parsed : Parsed)
    {stream : Stream}
    (digit : isDigit (timedPeek stream) = true) :
    parseLoop ignore parsed (0x2d :: stream) =
      parseLoop ignore { parsed with isNegative := true } stream := by
  have ignoredNot : (((0x2d : BitVec 8).toNat : Nat) : Int) ≠ ignore :=
    Ne.symm ignorable.2
  have isSign : (((0x2d : BitVec 8).toNat : Nat) : Int) = 0x2d := rfl
  rw [parseLoop, Parsed.take, if_neg ignoredNot, if_pos isSign, digit,
    Bool.true_or, if_pos rfl]

/-- A character that `peekNextDigit` passes over. -/
def Skipped (lookahead : LookaheadMode) (b : BitVec 8) : Prop :=
  discards lookahead b.toNat = true ∧ Ignorable b.toNat

instance (lookahead : LookaheadMode) (b : BitVec 8) :
    Decidable (Skipped lookahead b) :=
  inferInstanceAs (Decidable (_ ∧ _))

theorem peekNextDigit_skipped
    {lookahead : LookaheadMode}
    {junk : Stream}
    (skipped : ∀ b ∈ junk, Skipped lookahead b)
    (stream : Stream) :
    peekNextDigit lookahead false (junk ++ stream) =
      peekNextDigit lookahead false stream := by
  induction junk with
  | nil =>
      rfl
  | cons b junk inductionHypothesis =>
      obtain ⟨⟨discarded, noDigit, noSign⟩, others⟩ :=
        List.forall_mem_cons.mp skipped
      rw [List.cons_append, peekNextDigit]
      simp only [noDigit, noSign, discarded, decide_false, Bool.false_and,
        Bool.or_self, Bool.false_eq_true, if_false, if_true]
      exact inductionHypothesis others

/-- The text of a number, which starts it. -/
theorem peekNextDigit_starts
    (lookahead : LookaheadMode)
    {b : BitVec 8}
    (starts : b = 0x2d ∨ isDigit b.toNat = true)
    (stream : Stream) :
    peekNextDigit lookahead false (b :: stream) =
      ((b.toNat : Int), b :: stream) := by
  rw [peekNextDigit]
  rcases starts with rfl | digit
  · rfl
  · simp [digit]

theorem parseInt_eq_of_starts
    (lookahead : LookaheadMode)
    (ignore : BitVec 8)
    {junk : Stream}
    (skipped : ∀ b ∈ junk, Skipped lookahead b)
    {b : BitVec 8}
    (starts : b = 0x2d ∨ isDigit b.toNat = true)
    (stream : Stream) :
    parseInt lookahead ignore (junk ++ b :: stream) =
      (parseLoop ignore.toInt ⟨false, 0⟩ (b :: stream)).map
        (fun result =>
          (if result.1.isNegative then -result.1.value else result.1.value,
            result.2)) := by
  have positive : ¬ (b.toNat : Int) < 0 := by omega
  rw [parseInt, peekNextDigit_skipped skipped,
    peekNextDigit_starts lookahead starts]
  exact if_neg positive

/--
What `print` writes of a `long` in base ten is read back by `parseInt`, behind
characters that it passes over and up to the end of the number.
-/
theorem parseInt_print
    {lookahead : LookaheadMode}
    {ignore : BitVec 8}
    (ignorable : Ignorable ignore.toInt)
    {junk rest : Stream}
    (skipped : ∀ b ∈ junk, Skipped lookahead b)
    (ends : EndsNumber ignore.toInt rest)
    {n : BitVec 32}
    {text : Stream}
    (printed : Print.print n 10 = some text) :
    parseInt lookahead ignore (junk ++ (text ++ rest)) =
      some (n, rest) := by
  have decimal : ∀ m, ∀ digit ∈ Print.numerals 10 m, digit < 10 :=
    fun m digit member =>
      Print.lt_of_mem_numerals (by decide) member
  have looped (isNegative : Bool) (m : Nat) :
      parseLoop ignore.toInt ⟨isNegative, 0⟩
          ((Print.numerals 10 m).map Print.digitChar ++ rest) =
        some (⟨isNegative, BitVec.ofNat 32 m⟩, rest) := by
    have digits :=
      parseLoop_digits ignorable isNegative 0
        (Print.numerals_ne_nil 10 m) (decimal m) ends
    rw [valueOf_numerals] at digits
    exact digits
  rw [Print.print_ten] at printed
  obtain rfl := Option.some.inj printed
  have starts (m : Nat) :
      ∃ digit digits,
        Print.numerals 10 m = digit :: digits ∧ digit < 10 := by
    obtain ⟨digit, digits, numerals⟩ :=
      List.exists_cons_of_ne_nil (Print.numerals_ne_nil 10 m)
    exact ⟨digit, digits, numerals,
      decimal m digit (numerals ▸ List.mem_cons_self)⟩
  cases negative : n.msb with
  | false =>
      obtain ⟨digit, digits, numerals, first⟩ := starts n.toNat
      have loop := looped false n.toNat
      rw [numerals, List.map_cons, List.cons_append] at loop
      simp only [Bool.false_eq_true, if_false]
      rw [numerals, List.map_cons, List.cons_append,
        parseInt_eq_of_starts lookahead ignore skipped
          (.inr (isDigit_digitChar first)), loop, BitVec.ofNat_toNat]
      simp
  | true =>
      have loop := looped true (-n).toNat
      simp only [if_true]
      rw [List.cons_append,
        parseInt_eq_of_starts lookahead ignore skipped (.inl rfl)]
      obtain ⟨digit, digits, numerals, first⟩ := starts (-n).toNat
      have isNext :
          isDigit
            (timedPeek
              ((Print.numerals 10 (-n).toNat).map Print.digitChar ++
                rest)) = true := by
        rw [numerals]
        exact isDigit_digitChar first
      rw [parseLoop_sign ignorable _ isNext, loop, BitVec.ofNat_toNat]
      simp

/-! ## Lines of numbers -/

/-- One number a line. -/
def printLines : List (BitVec 32) → Option Stream
  | [] => some []
  | n :: rest => do
      let line ← Print.println n 10
      let lines ← printLines rest
      return line ++ lines

/-- `parseInt` as often as said. -/
def parseInts
    (lookahead : LookaheadMode)
    (ignore : BitVec 8) :
    Nat → Stream → Option (List (BitVec 32) × Stream)
  | 0, stream => some ([], stream)
  | count + 1, stream => do
      let (n, stream) ← parseInt lookahead ignore stream
      let (rest, stream) ← parseInts lookahead ignore count stream
      return (n :: rest, stream)

/-- The end of a line. -/
def newline : Stream :=
  [0x0d, 0x0a]

theorem skipped_newline
    {lookahead : LookaheadMode}
    (skips : lookahead ≠ .skipNone) :
    ∀ b ∈ newline, Skipped lookahead b := by
  cases lookahead with
  | skipNone =>
      contradiction
  | skipAll =>
      decide
  | skipWhitespace =>
      decide

/-- Each number is parsed behind the end of the line before it. -/
theorem parseInts_lines
    {lookahead : LookaheadMode}
    (skips : lookahead ≠ .skipNone)
    {ignore : BitVec 8}
    (ignorable : Ignorable ignore.toInt)
    (lineEnds : ignore ≠ 0x0d)
    {junk : Stream}
    (skipped : ∀ b ∈ junk, Skipped lookahead b)
    {ns : List (BitVec 32)}
    {text : Stream}
    (printed : printLines ns = some text) :
    ∃ left,
      parseInts lookahead ignore ns.length (junk ++ text) =
        some (ns, left) := by
  induction ns generalizing junk text with
  | nil =>
      exact ⟨_, rfl⟩
  | cons n ns inductionHypothesis =>
      rw [printLines, Print.println] at printed
      cases number : Print.print n 10 with
      | none =>
          rw [number] at printed
          contradiction
      | some digits =>
          cases lines : printLines ns with
          | none =>
              rw [number, lines] at printed
              contradiction
          | some rest =>
              rw [number, lines] at printed
              obtain rfl := Option.some.inj printed
              have ends :
                  EndsNumber ignore.toInt (newline ++ rest) := by
                refine ⟨rfl, fun same => lineEnds ?_⟩
                exact BitVec.eq_of_toInt_eq same.symm
              have first :=
                parseInt_print ignorable skipped ends number
              obtain ⟨left, others⟩ :=
                inductionHypothesis (skipped_newline skips) lines
              refine ⟨left, ?_⟩
              have joined :
                  junk ++ (digits ++ newline ++ rest) =
                    junk ++ (digits ++ (newline ++ rest)) := by
                rw [List.append_assoc]
              change
                parseInts lookahead ignore (ns.length + 1)
                  (junk ++ (digits ++ newline ++ rest)) = _
              rw [joined, parseInts, first]
              simp only [Option.bind_eq_bind, Option.bind_some, others]
              rfl

/--
The numbers of a client that prints one a line are the numbers of a client that
parses as many.
-/
theorem parseInts_printLines
    {lookahead : LookaheadMode}
    (skips : lookahead ≠ .skipNone)
    {ignore : BitVec 8}
    (ignorable : Ignorable ignore.toInt)
    (lineEnds : ignore ≠ 0x0d)
    {ns : List (BitVec 32)}
    {text : Stream}
    (printed : printLines ns = some text) :
    (parseInts lookahead ignore ns.length text).map Prod.fst = some ns := by
  obtain ⟨left, parsed⟩ :=
    parseInts_lines skips ignorable lineEnds
      (fun b member => absurd member List.not_mem_nil) printed
  rw [List.nil_append] at parsed
  rw [parsed]
  rfl

theorem parseInts_printLines_extremes :
    (parseInts .skipAll 0x01 3
        ((printLines [0x80000000, 0xffffffff, 0x7fffffff]).get
          (by decide +kernel))).map Prod.fst =
      some [0x80000000, 0xffffffff, 0x7fffffff] :=
  @parseInts_printLines .skipAll (by decide) 0x01 (by decide) (by decide)
    [0x80000000, 0xffffffff, 0x7fffffff] _
    (Option.some_get (by decide +kernel)).symm

end Stream

end KeyboardEmulator
