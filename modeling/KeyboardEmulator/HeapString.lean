import Mathlib.Data.List.DropRight
import Mathlib.Data.List.GetD
import Mathlib.Data.List.TakeWhile

namespace KeyboardEmulator

/-!
# Strings on the heap

A `String` keeps its characters, and a zero behind them, in a buffer that
`realloc` gives.  Whatever calls a client makes and whichever of the allocations
fail, the calls stay inside of the buffer, and what it holds, how much it has
room for and what the calls return is what a text with a capacity makes of them.
A client passes no zero among its characters, no pointer into the buffer itself,
and does not reserve 65535 characters: the byte for the zero wraps around then.
-/

/-- The SRAM of an ATmega328P in bytes. -/
def sramBytes : Nat :=
  2048

/-- Its data memory, in which a C string lies: registers, then SRAM. -/
def dataBytes : Nat :=
  2304

/-- The value of an `unsigned int`. -/
def uint (n : Nat) : Nat :=
  n % 65536

/-- A `String`: what is allocated, none for `NULL`, and its two numbers. -/
structure HeapString where
  buffer : Option (List (BitVec 8))
  capacity : Nat
  len : Nat
  deriving Repr, DecidableEq

namespace HeapString

/-- What `realloc` finds in memory behind the old bytes; none when it fails. -/
abbrev Memory :=
  Option (Nat → BitVec 8)

/-- It can give that many bytes. -/
def Memory.gives (memory : Memory) (size : Nat) : Bool :=
  Option.isSome memory && decide (size ≤ sramBytes)

/-! ## Memory -/

/-- The bytes that `realloc(buffer, size)` returns, none for `NULL`. -/
def realloc
    (buffer : Option (List (BitVec 8)))
    (size : Nat)
    (memory : Memory) : Option (List (BitVec 8)) :=
  if memory.gives size then
    let old := buffer.getD []
    some
      (old.take size ++
        (List.range (size - old.length)).map (memory.getD (fun _ => 0)))
  else
    none

/-- Bytes stored from an offset on; none outside of what is allocated. -/
def storeAt
    (bytes : List (BitVec 8))
    (offset : Nat)
    (stored : List (BitVec 8)) : Option (List (BitVec 8)) :=
  if offset + stored.length ≤ bytes.length then
    some (bytes.take offset ++ stored ++ bytes.drop (offset + stored.length))
  else
    none

def store
    (s : HeapString)
    (offset : Nat)
    (stored : List (BitVec 8)) : Option HeapString :=
  s.buffer.bind (fun bytes =>
    (storeAt bytes offset stored).map (fun bytes =>
      { s with buffer := some bytes }))

/-- The bytes that `strncpy` writes. -/
def strncpy (source : List (BitVec 8)) (n : Nat) : List (BitVec 8) :=
  let copied := (source.take n).takeWhile (· ≠ 0)
  copied ++ List.replicate (n - copied.length) 0

/-! ## The methods -/

/-- `init()`. -/
def init : HeapString where
  buffer := none
  capacity := 0
  len := 0

/-- `changeBuffer(maxStrLen)`. -/
def changeBuffer
    (s : HeapString)
    (maxStrLen : Nat)
    (memory : Memory) : HeapString × Bool :=
  match realloc s.buffer (uint (maxStrLen + 1)) memory with
  | none => (s, false)
  | some bytes => ({ s with buffer := some bytes, capacity := maxStrLen }, true)

/-- `reserve(size)`, and what it returns. -/
def reserve
    (s : HeapString)
    (size : Nat)
    (memory : Memory) : Option (HeapString × Bool) :=
  if s.buffer.isSome ∧ size ≤ s.capacity then
    some (s, true)
  else
    match s.changeBuffer size memory with
    | (s, false) => some (s, false)
    | (s, true) =>
        if s.len = 0 then (s.store 0 [0]).map (·, true) else some (s, true)

/-- `copy(cstr, strlen(cstr))`, and whether the `String` is valid then. -/
def copy
    (s : HeapString)
    (cstr : List (BitVec 8))
    (memory : Memory) : Option (HeapString × Bool) :=
  (s.reserve cstr.length memory).bind (fun reserved =>
    if reserved.2 then
      (reserved.1.store 0 (cstr ++ [0])).map (fun s =>
        ({ s with len := cstr.length }, true))
    else
      -- `invalidate()`
      some (init, false))

/-- `concat(cstr, length)`, and what it returns. -/
def concat
    (s : HeapString)
    (cstr : List (BitVec 8))
    (length : Nat)
    (memory : Memory) : Option (HeapString × Bool) :=
  if length = 0 then
    some (s, true)
  else
    (s.reserve (uint (s.len + length)) memory).bind (fun reserved =>
      if reserved.2 then
        (reserved.1.store reserved.1.len (cstr ++ [0])).map (fun next =>
          ({ next with len := uint (s.len + length) }, true))
      else
        some (reserved.1, false))

/-- `concat(c)`: a zero makes an empty string of length one. -/
def concatChar
    (s : HeapString)
    (c : BitVec 8)
    (memory : Memory) : Option (HeapString × Bool) :=
  s.concat (if c = 0 then [] else [c]) 1 memory

/-- `setCharAt(loc, c)`. -/
def setCharAt
    (s : HeapString)
    (loc : Nat)
    (c : BitVec 8) : Option HeapString :=
  if loc < s.len then s.store loc [c] else some s

/-- `remove(index, count)`. -/
def remove (s : HeapString) (index count : Nat) : Option HeapString :=
  if index ≥ s.len then
    some s
  else if count = 0 then
    some s
  else
    let count := if count > s.len - index then s.len - index else count
    let len := s.len - count
    s.buffer.bind (fun bytes =>
      (s.store index
        (strncpy (bytes.drop (index + count)) (len - index))).bind (fun s =>
          ({ s with len := len } : HeapString).store len [0]))

/-- `replace(find, replace)` of characters; none without a zero to stop at. -/
def replace
    (s : HeapString)
    (find replacement : BitVec 8) : Option HeapString :=
  match s.buffer with
  | none => some s
  | some bytes =>
      if 0 ∈ bytes then
        let chars := bytes.takeWhile (· ≠ 0)
        s.store 0 (chars.map (fun c => if c = find then replacement else c))
      else
        none

/-- `isspace(c)`. -/
def isSpace (c : BitVec 8) : Bool :=
  c == 0x20 || (decide (0x09 ≤ c) && decide (c ≤ 0x0d))

/-- `end + 1`, counted from the buffer, behind its loop in `trim`. -/
def trimEnd (bytes : List (BitVec 8)) (first : Nat) : Nat → Nat
  | 0 => 0
  | n + 1 =>
      if isSpace (bytes.getD n 0) = true ∧ first ≤ n then
        trimEnd bytes first n
      else
        n + 1

/-- `trim()`; none if nothing stops the loop that looks for the beginning. -/
def trim (s : HeapString) : Option HeapString :=
  match s.buffer with
  | none => some s
  | some bytes =>
      if s.len = 0 then
        some s
      else if bytes.all isSpace then
        none
      else
        let first := (bytes.takeWhile isSpace).length
        let len := trimEnd bytes first s.len - first
        (if first > 0 then s.store 0 ((bytes.drop first).take len)
          else some s).bind (fun s =>
            ({ s with len := len } : HeapString).store len [0])

/-! ## A client -/

inductive Call where
  | reserve (size : BitVec 16)
  /-- `= cstr` -/
  | assign (cstr : List (BitVec 8))
  /-- `+= cstr` -/
  | concat (cstr : List (BitVec 8))
  /-- `+= c` -/
  | concatChar (c : BitVec 8)
  | setCharAt (loc : Nat) (c : BitVec 8)
  | remove (index count : Nat)
  | replace (find replacement : BitVec 8)
  | trim
  deriving Repr, DecidableEq

/-- One call; none if it touches what is not its own. -/
def call? (s : HeapString) (memory : Memory) :
    Call → Option (HeapString × Bool)
  | .reserve size => s.reserve size.toNat memory
  | .assign cstr => s.copy cstr memory
  | .concat cstr => s.concat cstr cstr.length memory
  | .concatChar c => s.concatChar c memory
  | .setCharAt loc c => (s.setCharAt loc c).map (·, true)
  | .remove index count => (s.remove index count).map (·, true)
  | .replace find replacement => (s.replace find replacement).map (·, true)
  | .trim => s.trim.map (·, true)

/-- Calls one after the other, each with what its allocation would give. -/
def run? (s : HeapString) :
    List (Call × Memory) → Option (HeapString × List Bool)
  | [] => some (s, [])
  | (call, memory) :: rest =>
      (s.call? memory call).bind (fun called =>
        (called.1.run? rest).map (fun last => (last.1, called.2 :: last.2)))

/-! ## What a `String` is for -/

/-- Characters, and how many there is room for. -/
structure Text where
  chars : List (BitVec 8)
  capacity : Nat
  deriving Repr, DecidableEq

/-- The characters, none in an invalid `String`. -/
def charsOf (text : Option Text) : List (BitVec 8) :=
  (text.map Text.chars).getD []

/-- The text with room for that many characters, none if it cannot grow. -/
def Text.withRoom
    (text : Option Text)
    (size : Nat)
    (memory : Memory) : Option Text :=
  match text.filter (size ≤ ·.capacity) with
  | some text =>
      some text
  | none =>
      if memory.gives (size + 1) then
        some ⟨charsOf text, size⟩
      else
        none

/-- The text with other characters in the same room. -/
def Text.update
    (change : List (BitVec 8) → List (BitVec 8))
    (text : Option Text) : Option Text :=
  text.map (fun text => { text with chars := change text.chars })

/-- The text with these characters behind its own. -/
def Text.append
    (text : Option Text)
    (added : List (BitVec 8))
    (memory : Memory) : Option Text × Bool :=
  if added = [] then
    (text, true)
  else
    match withRoom text ((charsOf text).length + added.length) memory with
    | some grown => (update (· ++ added) (some grown), true)
    | none => (text, false)

/-- What a call makes of a text, none for an invalid `String`, and returns. -/
def Call.apply
    (text : Option Text)
    (memory : Memory) : Call → Option Text × Bool
  | .reserve size =>
      match Text.withRoom text size.toNat memory with
      | some grown => (some grown, true)
      | none => (text, false)
  | .assign cstr =>
      match Text.withRoom text cstr.length memory with
      | some grown => (Text.update (fun _ => cstr) (some grown), true)
      | none => (none, false)
  | .concat cstr =>
      Text.append text cstr memory
  | .concatChar c =>
      Text.append text [c] memory
  | .setCharAt loc c =>
      (Text.update (·.set loc c) text, true)
  | .remove index count =>
      (Text.update
          (fun chars => chars.take index ++ chars.drop (index + count)) text,
        true)
  | .replace find replacement =>
      (Text.update
          (·.map (fun c => if c = find then replacement else c)) text,
        true)
  | .trim =>
      (Text.update
          (fun chars => (chars.dropWhile isSpace).rdropWhile isSpace) text,
        true)

/-- A call that a client may make. -/
def Call.Fits : Call → Prop
  | .reserve size => size ≠ 0xffff
  | .assign cstr | .concat cstr => 0 ∉ cstr ∧ cstr.length < dataBytes
  | .concatChar c | .setCharAt _ c | .replace _ c => c ≠ 0
  | .remove _ _ | .trim => True

/-- What calls make of a text, and what they return. -/
def textAfter (text : Option Text) :
    List (Call × Memory) → Option Text × List Bool
  | [] => (text, [])
  | (call, memory) :: rest =>
      let (next, ok) := call.apply text memory
      let (last, returned) := textAfter next rest
      (last, ok :: returned)

/-- The `String` holds this text, with a zero behind it; none is `NULL`. -/
inductive Holds : HeapString → Option Text → Prop where
  | null :
      Holds ⟨none, 0, 0⟩ none
  | buffer
      {chars rest : List (BitVec 8)}
      {capacity : Nat}
      (clean : 0 ∉ chars)
      (size : (chars ++ 0 :: rest).length = capacity + 1)
      (small : capacity < sramBytes) :
      Holds ⟨some (chars ++ 0 :: rest), capacity, chars.length⟩
        (some ⟨chars, capacity⟩)

section Methods

variable {s : HeapString} {text : Option Text} {chars : List (BitVec 8)}
  {memory : Memory}

theorem Holds.len (holds : Holds s text) : s.len = (charsOf text).length := by
  cases holds <;> rfl

theorem Holds.clean (holds : Holds s text) : 0 ∉ charsOf text := by
  cases holds with
  | null =>
      exact List.not_mem_nil
  | buffer clean size small =>
      exact clean

theorem Holds.length_lt
    (holds : Holds s text) :
    (charsOf text).length < sramBytes := by
  cases holds with
  | null =>
      decide
  | @buffer chars rest capacity clean size small =>
      rw [List.length_append, List.length_cons] at size
      change chars.length < sramBytes
      omega

theorem uint_eq
    {n : Nat}
    (small : n < 65536) :
    uint n = n :=
  Nat.mod_eq_of_lt small

/-- A store behind a part of the buffer. -/
theorem store_append
    {front back stored : List (BitVec 8)}
    {capacity len : Nat}
    (fits : stored.length ≤ back.length) :
    store ⟨some (front ++ back), capacity, len⟩ front.length stored =
      some
        ⟨some (front ++ stored ++ back.drop stored.length), capacity, len⟩ := by
  have inside : front.length + stored.length ≤ (front ++ back).length := by
    rw [List.length_append]
    exact Nat.add_le_add_left fits _
  have stores :
      storeAt (front ++ back) front.length stored =
        some (front ++ stored ++ back.drop stored.length) := by
    rw [storeAt, if_pos inside, List.take_left, List.drop_length_add_append]
  change (storeAt (front ++ back) front.length stored).map _ = _
  rw [stores]
  rfl

theorem realloc_of_gives
    {buffer : Option (List (BitVec 8))}
    {size : Nat}
    (gives : memory.gives size = true)
    (grows : (buffer.getD []).length ≤ size) :
    realloc buffer size memory =
      some
        (buffer.getD [] ++
          (List.range (size - (buffer.getD []).length)).map
            (memory.getD (fun _ => 0))) := by
  rw [realloc, if_pos gives]
  change some ((buffer.getD []).take size ++ _) = _
  rw [List.take_of_length_le grows]

theorem realloc_of_refuses
    {size : Nat}
    (refuses : ¬ memory.gives size = true)
    (buffer : Option (List (BitVec 8))) :
    realloc buffer size memory = none :=
  if_neg refuses

theorem le_of_gives
    {size : Nat}
    (gives : memory.gives size = true) :
    size ≤ sramBytes := by
  rw [Memory.gives, Bool.and_eq_true] at gives
  exact of_decide_eq_true gives.2

/-- What `reserve` does: it fails, or the characters are where there is room. -/
inductive Reserved
    (text : Option Text)
    (size : Nat)
    (memory : Memory) :
    Option (HeapString × Bool) → Prop where
  | fails
      {next : HeapString}
      (holds : Holds next text)
      (refused : Text.withRoom text size memory = none) :
      Reserved text size memory (some (next, false))
  | room
      {capacity : Nat}
      {rest : List (BitVec 8)}
      (fits : (charsOf text ++ 0 :: rest).length = capacity + 1)
      (small : capacity < sramBytes)
      (enough : size ≤ capacity)
      (grown :
        Text.withRoom text size memory = some ⟨charsOf text, capacity⟩) :
      Reserved text size memory
        (some
          (⟨some (charsOf text ++ 0 :: rest), capacity,
            (charsOf text).length⟩, true))

/-- A zero is stored over the one at the beginning, or over anything else. -/
theorem store_zero (b : BitVec 8) (rest : List (BitVec 8)) (capacity : Nat) :
    store ⟨some (b :: rest), capacity, 0⟩ 0 [0] =
      some ⟨some (0 :: rest), capacity, 0⟩ :=
  @store_append [] (b :: rest) [0] capacity 0
    (Nat.succ_le_succ (Nat.zero_le _))

/-- With room for it there is nothing to do. -/
theorem withRoom_of_le
    {text : Text}
    {size : Nat}
    (enough : size ≤ text.capacity) :
    Text.withRoom (some text) size memory = some text := by
  have kept : Option.filter (size ≤ ·.capacity) (some text) = some text := by
    rw [Option.filter_some, if_pos (decide_eq_true enough)]
  rw [Text.withRoom, kept]

/-- Without it all depends on the allocation. -/
theorem withRoom_of_lt
    {size : Nat}
    (less : ∀ t, text = some t → t.capacity < size) :
    Text.withRoom text size memory =
      if memory.gives (size + 1) then some ⟨charsOf text, size⟩ else none := by
  have filtered : text.filter (size ≤ ·.capacity) = none := by
    refine Option.filter_eq_none_iff.mpr (fun t isText => ?_)
    exact fun enough =>
      Nat.not_lt.mpr (of_decide_eq_true enough) (less t isText)
  rw [Text.withRoom, filtered]

/-- `reserve`, unless its argument is all ones. -/
theorem Holds.reserve
    (holds : Holds s text)
    {size : Nat}
    (noWrap : size + 1 < 65536)
    (memory : Memory) :
    Reserved text size memory (s.reserve size memory) := by
  rw [HeapString.reserve]
  by_cases enough : s.buffer.isSome ∧ size ≤ s.capacity
  · rw [if_pos enough]
    cases holds with
    | null =>
        exact absurd enough.1 Bool.false_ne_true
    | buffer clean fits small =>
        exact .room fits small enough.2 (withRoom_of_le enough.2)
  · rw [if_neg enough]
    have less : ∀ t, text = some t → t.capacity < size := by
      rintro t rfl
      cases holds with
      | buffer clean fits small =>
          exact Nat.lt_of_not_le (fun large => enough ⟨rfl, large⟩)
    have room := @withRoom_of_lt text memory size less
    rw [changeBuffer, uint_eq noWrap]
    by_cases gives : memory.gives (size + 1) = true
    · rw [if_pos gives] at room
      have small : size < sramBytes := le_of_gives gives
      let behind := memory.getD (fun _ => 0)
      cases holds with
      | null =>
          have grown :
              realloc none (size + 1) memory =
                some
                  (behind 0 :: (List.range size).map (behind ∘ Nat.succ)) := by
            rw [realloc_of_gives gives (Nat.zero_le _)]
            change some ((List.range (size + 1)).map behind) = _
            rw [List.range_succ_eq_map, List.map_cons, List.map_map]
          simp only [grown, if_true, store_zero]
          exact @Reserved.room none size memory size _ (by simp [charsOf]) small
            (Nat.le_refl _) room
      | @buffer chars rest capacity clean fits _ =>
          have smaller : capacity < size := less _ rfl
          have grown :
              realloc (some (chars ++ 0 :: rest)) (size + 1) memory =
                some
                  (chars ++
                    0 :: (rest ++
                      (List.range (size - capacity)).map behind)) := by
            rw [realloc_of_gives gives
                (by rw [Option.getD_some, fits]; omega),
              Option.getD_some, fits, Nat.add_sub_add_right,
              List.append_assoc]
            rfl
          have filled :
              (chars ++
                  0 :: (rest ++
                    (List.range (size - capacity)).map behind)).length =
                size + 1 := by
            simp only [List.length_append, List.length_cons,
              List.length_map, List.length_range] at fits ⊢
            omega
          simp only [grown]
          split
          next noChars =>
            obtain rfl := List.eq_nil_of_length_eq_zero noChars
            rw [List.nil_append] at filled ⊢
            rw [List.length_nil, store_zero]
            exact @Reserved.room (some ⟨[], capacity⟩) size memory size _
              filled small (Nat.le_refl _) room
          next =>
            exact .room filled small (Nat.le_refl _) room
    · rw [if_neg gives] at room
      rw [realloc_of_refuses gives]
      exact .fails holds room

theorem withRoom_chars
    {size : Nat}
    {grown : Text}
    (grows : Text.withRoom text size memory = some grown) :
    grown.chars = charsOf text := by
  by_cases enough : ∃ t, text = some t ∧ size ≤ t.capacity
  · obtain ⟨t, rfl, room⟩ := enough
    rw [withRoom_of_le room] at grows
    exact congrArg Text.chars (Option.some.inj grows).symm
  · rw [withRoom_of_lt (fun t isText =>
      Nat.lt_of_not_le (fun room => enough ⟨t, isText, room⟩))] at grows
    split at grows
    · exact congrArg Text.chars (Option.some.inj grows).symm
    · exact absurd grows.symm (Option.some_ne_none grown)

/-- Characters are appended all or not at all. -/
theorem charsOf_append
    (text : Option Text)
    (added : List (BitVec 8))
    (memory : Memory) :
    charsOf (Text.append text added memory).1 = charsOf text ++ added ∨
      charsOf (Text.append text added memory).1 = charsOf text := by
  rw [Text.append]
  split
  · exact .inr rfl
  · cases grows :
        Text.withRoom text ((charsOf text).length + added.length) memory with
    | none =>
        exact .inr rfl
    | some grown =>
        refine .inl ?_
        rw [← withRoom_chars grows]
        rfl

/-- With memory for it a text is never refused. -/
theorem append_of_allocates
    {text : Text}
    {added : List (BitVec 8)}
    (allocates : memory.isSome = true)
    (fits : text.chars.length + added.length < sramBytes) :
    ∃ capacity,
      Text.append (some text) added memory =
        (some ⟨text.chars ++ added, capacity⟩, true) := by
  rw [Text.append]
  by_cases nothing : added = []
  · rw [if_pos nothing, nothing, List.append_nil]
    exact ⟨text.capacity, rfl⟩
  · let size := text.chars.length + added.length
    rw [if_neg nothing]
    change
      ∃ capacity,
        (match Text.withRoom (some text) size memory with
          | some grown => (Text.update (· ++ added) (some grown), true)
          | none => (some text, false)) =
          _
    by_cases enough : size ≤ text.capacity
    · rw [withRoom_of_le enough]
      exact ⟨text.capacity, rfl⟩
    · have gives : memory.gives (size + 1) = true := by
        rw [Memory.gives, allocates, Bool.true_and]
        exact decide_eq_true fits
      have less : ∀ t, some text = some t → t.capacity < size := by
        rintro t ⟨⟩
        exact Nat.lt_of_not_le enough
      rw [withRoom_of_lt less, if_pos gives]
      exact ⟨size, rfl⟩

/-- What a call leads to, and what it returns. -/
def Leads
    (called : Option (HeapString × Bool))
    (expected : Option Text × Bool) : Prop :=
  ∃ next, called = some (next, expected.2) ∧ Holds next expected.1

/-- A C string stored where the characters end fits with its zero. -/
theorem store_chars
    {front cstr back : List (BitVec 8)}
    {capacity len : Nat}
    (clean : 0 ∉ front ++ cstr)
    (size : (front ++ back).length = capacity + 1)
    (small : capacity < sramBytes)
    (room : front.length + cstr.length ≤ capacity) :
    ∃ rest,
      store ⟨some (front ++ back), capacity, len⟩ front.length (cstr ++ [0]) =
          some ⟨some ((front ++ cstr) ++ 0 :: rest), capacity, len⟩ ∧
        Holds
          ⟨some ((front ++ cstr) ++ 0 :: rest), capacity,
            (front ++ cstr).length⟩
          (some ⟨front ++ cstr, capacity⟩) := by
  rw [List.length_append] at size
  have fits : (cstr ++ [0]).length ≤ back.length := by
    rw [List.length_append, List.length_singleton]
    omega
  refine ⟨back.drop (cstr ++ [0]).length, ?_, .buffer clean ?_ small⟩
  · rw [store_append fits]
    simp only [List.append_assoc, List.cons_append, List.nil_append]
  · simp only [List.length_append, List.length_cons, List.length_drop,
      List.length_nil] at fits ⊢
    omega

/-- An invalid `String` is what a failed assignment leaves. -/
theorem Holds.copy
    (holds : Holds s text)
    {cstr : List (BitVec 8)}
    (clean : 0 ∉ cstr)
    (inData : cstr.length < dataBytes)
    (memory : Memory) :
    Leads (s.copy cstr memory) (Call.apply text memory (.assign cstr)) := by
  have noWrap : cstr.length + 1 < 65536 := by
    change cstr.length < 2304 at inData
    omega
  rw [HeapString.copy, Call.apply]
  have made := holds.reserve noWrap memory
  generalize s.reserve cstr.length memory = reserved at made ⊢
  cases made with
  | fails held refused =>
      rw [refused]
      exact ⟨HeapString.init, rfl, .null⟩
  | @room capacity rest fits small enough grown =>
      obtain ⟨behind, stores, held⟩ :=
        @store_chars [] cstr (charsOf text ++ 0 :: rest) capacity
          (charsOf text).length clean fits small (by simpa using enough)
      rw [List.nil_append, List.length_nil] at stores
      rw [grown]
      refine ⟨_, ?_, held⟩
      rw [Option.bind_some, if_pos rfl, stores]
      rfl

theorem Holds.concat
    (holds : Holds s text)
    {cstr : List (BitVec 8)}
    (clean : 0 ∉ cstr)
    (inData : cstr.length < dataBytes)
    (memory : Memory) :
    Leads (s.concat cstr cstr.length memory) (Text.append text cstr memory) := by
  rw [HeapString.concat, Text.append]
  by_cases noChars : cstr = []
  · have noLength : cstr.length = 0 := congrArg List.length noChars
    rw [if_pos noChars, if_pos noLength]
    exact ⟨s, rfl, holds⟩
  · have longer : ¬ cstr.length = 0 := fun empty =>
      noChars (List.eq_nil_of_length_eq_zero empty)
    have short := holds.length_lt
    change (charsOf text).length < 2048 at short
    change cstr.length < 2304 at inData
    rw [if_neg noChars, if_neg longer, holds.len, uint_eq (by omega)]
    have made :=
      @Holds.reserve s text holds ((charsOf text).length + cstr.length)
        (by omega) memory
    generalize s.reserve ((charsOf text).length + cstr.length) memory =
      reserved at made ⊢
    cases made with
    | fails held refused =>
        rw [refused]
        exact ⟨_, rfl, held⟩
    | @room capacity rest fits small enough grown =>
        obtain ⟨behind, stores, held⟩ :=
          @store_chars (charsOf text) cstr (0 :: rest) capacity
            (charsOf text).length
            (by
              rw [List.mem_append, not_or]
              exact ⟨holds.clean, clean⟩)
            fits small enough
        rw [grown]
        refine ⟨_, ?_, held⟩
        rw [Option.bind_some, if_pos rfl, stores, List.length_append]
        rfl

theorem Holds.setCharAt
    (holds : Holds s text)
    (loc : Nat)
    {c : BitVec 8}
    (clean : c ≠ 0) :
    ∃ next,
      s.setCharAt loc c = some next ∧
        Holds next (Text.update (·.set loc c) text) := by
  rw [HeapString.setCharAt]
  cases holds with
  | null =>
      exact ⟨_, rfl, .null⟩
  | @buffer chars rest capacity cleanChars size small =>
      by_cases inside : loc < chars.length
      · rw [if_pos inside]
        have front : (chars.take loc).length = loc :=
          List.length_take_of_le (Nat.le_of_lt inside)
        have split_ :
            chars ++ 0 :: rest =
              chars.take loc ++ (chars.drop loc ++ 0 :: rest) := by
          rw [← List.append_assoc, List.take_append_drop]
        have stores :=
          @store_append (chars.take loc) (chars.drop loc ++ 0 :: rest) [c]
            capacity chars.length
            (by
              rw [List.length_append, List.length_cons]
              exact Nat.succ_le_of_lt (Nat.succ_pos _))
        have replaced :
            chars.take loc ++ [c] ++
                (chars.drop loc ++ 0 :: rest).drop [c].length =
              chars.set loc c ++ 0 :: rest := by
          rw [List.set_eq_take_append_cons_drop, if_pos inside,
            List.length_singleton, List.drop_append_of_le_length
              (by rw [List.length_drop]; omega), List.drop_drop]
          simp
        have cleanSet : 0 ∉ chars.set loc c := fun member =>
          (List.mem_or_eq_of_mem_set member).elim cleanChars
            (fun isC => clean isC.symm)
        have held :=
          @Holds.buffer (chars.set loc c) rest capacity cleanSet
            (by rw [List.length_append, List.length_set,
              ← List.length_append, size])
            small
        rw [List.length_set] at held
        refine ⟨_, ?_, held⟩
        rw [front, replaced, ← split_] at stores
        exact stores
      · have same : chars.set loc c = chars :=
          List.set_eq_of_length_le (Nat.le_of_not_lt inside)
        rw [if_neg inside]
        refine ⟨_, rfl, ?_⟩
        change Holds _ (some ⟨chars.set loc c, capacity⟩)
        rw [same]
        exact .buffer cleanChars size small

theorem ne_zero_of_clean (clean : 0 ∉ chars) :
    ∀ c ∈ chars, decide (c ≠ 0) = true := by
  intro c member
  refine decide_eq_true ?_
  rintro rfl
  exact clean member

/-- Characters without a zero are copied as they are. -/
theorem strncpy_clean
    {copied rest : List (BitVec 8)}
    (clean : 0 ∉ copied) :
    strncpy (copied ++ rest) copied.length = copied := by
  have whole : copied.takeWhile (· ≠ 0) = copied :=
    List.takeWhile_eq_self_iff.mpr (ne_zero_of_clean clean)
  rw [strncpy, List.take_left, whole, Nat.sub_self, List.replicate_zero,
    List.append_nil]

/-- What `remove` does to a buffer, once it knows how many characters go. -/
theorem store_kept
    {rest : List (BitVec 8)}
    {capacity index removed : Nat}
    (clean : 0 ∉ chars)
    (size : (chars ++ 0 :: rest).length = capacity + 1)
    (small : capacity < sramBytes)
    (atMost : index + removed ≤ chars.length) :
    ∃ next,
      ((store ⟨some (chars ++ 0 :: rest), capacity, chars.length⟩ index
            (strncpy ((chars ++ 0 :: rest).drop (index + removed))
              (chars.length - removed - index))).bind
          (fun s =>
            ({ s with len := chars.length - removed } : HeapString).store
              (chars.length - removed) [0])) =
        some next ∧
          Holds next
            (some
              ⟨chars.take index ++ chars.drop (index + removed), capacity⟩) := by
  let kept := chars.drop (index + removed)
  let back := (chars.drop index ++ 0 :: rest).drop kept.length
  have keptLength : kept.length = chars.length - removed - index := by
    rw [List.length_drop]
    omega
  have front : (chars.take index).length = index :=
    List.length_take_of_le (Nat.le_of_add_right_le atMost)
  have shorter :
      (chars.take index ++ kept).length = chars.length - removed := by
    rw [List.length_append, front, keptLength]
    omega
  have backLength : back.length = removed + 1 + rest.length := by
    change ((chars.drop index ++ 0 :: rest).drop kept.length).length = _
    rw [List.length_drop, List.length_append, List.length_cons,
      List.length_drop, keptLength]
    omega
  have copied :
      strncpy ((chars ++ 0 :: rest).drop (index + removed))
          (chars.length - removed - index) =
        kept := by
    rw [List.drop_append_of_le_length atMost, ← keptLength]
    exact strncpy_clean (fun member => clean (List.mem_of_mem_drop member))
  have moved :=
    @store_append (chars.take index) (chars.drop index ++ 0 :: rest) kept
      capacity chars.length
      (by
        rw [keptLength, List.length_append, List.length_drop]
        omega)
  have ended :=
    @store_append (chars.take index ++ kept) back [0] capacity
      (chars.length - removed)
      (by
        rw [backLength, List.length_singleton]
        omega)
  have cleanKept : 0 ∉ chars.take index ++ kept := by
    rw [List.mem_append, not_or]
    exact ⟨fun member => clean (List.mem_of_mem_take member),
      fun member => clean (List.mem_of_mem_drop member)⟩
  have held :=
    @Holds.buffer (chars.take index ++ kept) (back.drop 1) capacity cleanKept
      (by
        rw [List.length_append, List.length_cons] at size
        rw [List.length_append, shorter, List.length_cons, List.length_drop,
          backLength]
        omega)
      small
  rw [shorter] at held ended
  rw [front, ← List.append_assoc, List.take_append_drop] at moved
  rw [List.append_assoc (chars.take index ++ kept)] at ended
  refine ⟨_, ?_, held⟩
  rw [copied, moved, Option.bind_some]
  exact ended

/-- A count that is too large takes all there is. -/
theorem drop_clipped (index count : Nat) :
    chars.drop (index + count) =
      chars.drop
        (index +
          if count > chars.length - index then chars.length - index
          else count) := by
  split
  next =>
    rw [List.drop_eq_nil_of_le (by omega), List.drop_eq_nil_of_le (by omega)]
  next =>
    rfl

theorem Holds.remove
    (holds : Holds s text)
    (index count : Nat) :
    ∃ next,
      s.remove index count = some next ∧
        Holds next
          (Text.update
            (fun chars => chars.take index ++ chars.drop (index + count))
            text) := by
  rw [HeapString.remove]
  cases holds with
  | null =>
      rw [if_pos (Nat.zero_le _)]
      exact ⟨_, rfl, .null⟩
  | @buffer chars rest capacity clean size small =>
      change
        ∃ next,
          _ = some next ∧
            Holds next
              (some
                ⟨chars.take index ++ chars.drop (index + count), capacity⟩)
      by_cases outside : index ≥ chars.length
      · rw [if_pos outside, List.take_of_length_le outside,
          List.drop_eq_nil_of_le (Nat.le_add_right_of_le outside),
          List.append_nil]
        exact ⟨_, rfl, .buffer clean size small⟩
      · rw [if_neg outside]
        by_cases nothing : count = 0
        · rw [if_pos nothing, nothing, Nat.add_zero, List.take_append_drop]
          exact ⟨_, rfl, .buffer clean size small⟩
        · have inside : index < chars.length := Nat.lt_of_not_le outside
          have atMost :
              index +
                  (if count > chars.length - index then chars.length - index
                    else count) ≤
                chars.length := by
            split <;> omega
          rw [if_neg nothing, drop_clipped]
          exact store_kept clean size small atMost

theorem Holds.replace
    (holds : Holds s text)
    (find : BitVec 8)
    {replacement : BitVec 8}
    (clean : replacement ≠ 0) :
    ∃ next,
      s.replace find replacement = some next ∧
        Holds next
          (Text.update
            (·.map (fun c => if c = find then replacement else c)) text) := by
  cases holds with
  | null =>
      exact ⟨_, rfl, .null⟩
  | @buffer chars rest capacity cleanChars size small =>
      have stops : (0 : BitVec 8) ∈ chars ++ 0 :: rest :=
        List.mem_append_right _ List.mem_cons_self
      have front : (chars ++ 0 :: rest).takeWhile (· ≠ 0) = chars := by
        rw [List.takeWhile_append_of_pos (ne_zero_of_clean cleanChars),
          List.takeWhile_cons_of_neg (by simp), List.append_nil]
      let replaced := chars.map (fun c => if c = find then replacement else c)
      have sameLength : replaced.length = chars.length :=
        List.length_map _
      have stores :=
        @store_append [] (chars ++ 0 :: rest) replaced capacity chars.length
          (by
            rw [sameLength, List.length_append]
            exact Nat.le_add_right _ _)
      rw [List.nil_append, List.nil_append, List.length_nil, sameLength,
        List.drop_left] at stores
      have cleanReplaced : 0 ∉ replaced := by
        intro member
        obtain ⟨c, isChar, isZero⟩ := List.mem_map.mp member
        split at isZero
        · exact clean isZero
        · exact cleanChars (isZero ▸ isChar)
      have held :=
        @Holds.buffer replaced rest capacity cleanReplaced
          (by rw [List.length_append, sameLength, ← List.length_append, size])
          small
      rw [sameLength] at held
      refine ⟨_, ?_, held⟩
      simp only [HeapString.replace, if_pos stops, front]
      exact stores

theorem takeWhile_isSpace (rest : List (BitVec 8)) :
    (chars ++ 0 :: rest).takeWhile isSpace = chars.takeWhile isSpace := by
  rw [List.takeWhile_append]
  split
  next allSpaces =>
    have whole := (List.takeWhile_prefix isSpace).eq_of_length allSpaces
    rw [List.takeWhile_cons_of_neg (by decide), List.append_nil, whole]
  next =>
    rfl

theorem drop_takeWhile :
    chars.drop (chars.takeWhile isSpace).length = chars.dropWhile isSpace := by
  have parts := @List.takeWhile_append_dropWhile _ isSpace chars
  have dropped := congrArg (List.drop (chars.takeWhile isSpace).length) parts
  rw [List.drop_left] at dropped
  exact dropped.symm

/-- The second loop of `trim` stops where the spaces at the end begin. -/
theorem trimEnd_spec
    (back : List (BitVec 8))
    {first n : Nat}
    (inside : n ≤ chars.length)
    (behind : first ≤ n) :
    first ≤ trimEnd (chars ++ back) first n ∧
      trimEnd (chars ++ back) first n ≤ n ∧
        (chars.drop first).take (trimEnd (chars ++ back) first n - first) =
          ((chars.drop first).take (n - first)).rdropWhile isSpace := by
  induction n with
  | zero =>
      obtain rfl := Nat.le_zero.mp behind
      exact ⟨Nat.le_refl _, Nat.le_refl _, rfl⟩
  | succ n inductionHypothesis =>
      by_cases notFirst : first ≤ n
      · have isChar : (chars ++ back).getD n 0 = chars[n] := by
          rw [List.getD_append _ _ _ _ inside, List.getD_eq_getElem _ _ inside]
        have longer :
            (chars.drop first).take (n + 1 - first) =
              (chars.drop first).take (n - first) ++ [chars[n]] := by
          rw [Nat.succ_sub notFirst, List.take_add_one, List.getElem?_drop,
            Nat.add_sub_of_le notFirst, List.getElem?_eq_getElem inside]
          rfl
        rw [trimEnd, isChar, longer, List.rdropWhile_concat]
        by_cases space : isSpace chars[n] = true
        · rw [if_pos ⟨space, notFirst⟩, if_pos space]
          obtain ⟨atLeast, atMost, taken⟩ :=
            inductionHypothesis (Nat.le_of_succ_le inside) notFirst
          exact ⟨atLeast, Nat.le_succ_of_le atMost, taken⟩
        · rw [if_neg (fun both => space both.1), if_neg space, longer]
          exact ⟨behind, Nat.le_refl _, rfl⟩
      · obtain rfl : first = n + 1 := by omega
        rw [trimEnd, if_neg (fun both => notFirst both.2)]
        refine ⟨Nat.le_refl _, Nat.le_refl _, ?_⟩
        rw [Nat.sub_self, List.take_zero]
        rfl

/-- A zero behind characters that have been put to the beginning. -/
theorem store_end
    {rest kept : List (BitVec 8)}
    {capacity : Nat}
    (clean : 0 ∉ kept)
    (size : (chars ++ 0 :: rest).length = capacity + 1)
    (small : capacity < sramBytes)
    (shorter : kept.length ≤ chars.length) :
    ∃ next,
      store
          ⟨some (kept ++ (chars ++ 0 :: rest).drop kept.length), capacity,
            kept.length⟩
          kept.length [0] =
        some next ∧
          Holds next (some ⟨kept, capacity⟩) := by
  let back := (chars ++ 0 :: rest).drop kept.length
  have backLength : back.length + kept.length = capacity + 1 := by
    change ((chars ++ 0 :: rest).drop kept.length).length + _ = _
    rw [List.length_drop, size]
    rw [List.length_append] at size
    omega
  have room : 0 < back.length := by
    rw [List.length_append, List.length_cons] at size
    omega
  have ended := @store_append kept back [0] capacity kept.length room
  have held :=
    @Holds.buffer kept (back.drop 1) capacity clean
      (by
        rw [List.length_append, List.length_cons, List.length_drop]
        omega)
      small
  rw [List.append_assoc] at ended
  exact ⟨_, ended, held⟩

theorem Holds.trim (holds : Holds s text) :
    ∃ next,
      s.trim = some next ∧
        Holds next
          (Text.update
            (fun chars => (chars.dropWhile isSpace).rdropWhile isSpace)
            text) := by
  cases holds with
  | null =>
      exact ⟨_, rfl, .null⟩
  | @buffer chars rest capacity clean size small =>
      by_cases empty : chars.length = 0
      · obtain rfl := List.eq_nil_of_length_eq_zero empty
        exact ⟨_, rfl, .buffer clean size small⟩
      · have stops : ¬ (chars ++ 0 :: rest).all isSpace = true := by
          rw [List.all_eq_true]
          intro all
          exact Bool.false_ne_true
            (all 0 (List.mem_append_right _ List.mem_cons_self))
        simp only [HeapString.trim, if_neg empty, if_neg stops,
          takeWhile_isSpace]
        have behind : (chars.takeWhile isSpace).length ≤ chars.length :=
          (List.takeWhile_prefix isSpace).length_le
        obtain ⟨atLeast, atMost, taken⟩ :=
          trimEnd_spec (0 :: rest) (Nat.le_refl chars.length) behind
        have dropped := @drop_takeWhile chars
        let kept := (chars.dropWhile isSpace).rdropWhile isSpace
        generalize (chars.takeWhile isSpace).length = first at *
        generalize trimEnd (chars ++ 0 :: rest) first chars.length = last at *
        rw [@List.take_of_length_le _ (chars.length - first) _
          (Nat.le_of_eq List.length_drop)] at taken
        have keptIs : (chars.drop first).take (last - first) = kept := by
          rw [taken, dropped]
        have keptLength : kept.length = last - first := by
          rw [← keptIs, List.length_take, List.length_drop]
          omega
        have copied :
            ((chars ++ 0 :: rest).drop first).take (last - first) = kept := by
          rw [List.drop_append_of_le_length behind,
            List.take_append_of_le_length (by rw [List.length_drop]; omega),
            keptIs]
        have shorter : kept.length ≤ chars.length := by omega
        have cleanKept : 0 ∉ kept := fun member =>
          clean (List.mem_of_mem_drop (List.mem_of_mem_take (keptIs ▸ member)))
        obtain ⟨next, ended, held⟩ := store_end cleanKept size small shorter
        refine ⟨next, ?_, held⟩
        rw [copied, ← keptLength]
        by_cases moves : first > 0
        · have moved :=
            @store_append [] (chars ++ 0 :: rest) kept capacity chars.length
              (by rw [List.length_append]; omega)
          rw [List.nil_append, List.nil_append, List.length_nil] at moved
          rw [if_pos moves, moved, Option.bind_some]
          exact ended
        · obtain rfl : first = 0 := by omega
          have whole :=
            List.take_append_drop kept.length (chars ++ 0 :: rest)
          have front : (chars ++ 0 :: rest).take kept.length = kept := by
            rw [keptLength]
            exact copied
          rw [front] at whole
          rw [whole] at ended
          rw [if_neg moves, Option.bind_some]
          exact ended

/-- One call, whichever it is. -/
theorem Holds.call?
    (holds : Holds s text)
    {call : Call}
    (fits : call.Fits)
    (memory : Memory) :
    Leads (s.call? memory call) (call.apply text memory) := by
  cases call with
  | reserve size =>
      have noWrap : size.toNat + 1 < 65536 := by
        have differ : size.toNat ≠ 0xffff := fun same =>
          fits (BitVec.eq_of_toNat_eq same)
        have bounded := size.isLt
        omega
      have made := holds.reserve noWrap memory
      rw [HeapString.call?, Call.apply]
      generalize s.reserve size.toNat memory = reserved at made ⊢
      cases made with
      | fails held refused =>
          rw [refused]
          exact ⟨_, rfl, held⟩
      | room size small enough grown =>
          rw [grown]
          exact ⟨_, rfl, .buffer holds.clean size small⟩
  | assign cstr =>
      exact holds.copy fits.1 fits.2 memory
  | concat cstr =>
      exact holds.concat fits.1 fits.2 memory
  | concatChar c =>
      rw [HeapString.call?, concatChar, if_neg fits]
      exact @Holds.concat s text holds [c]
        (fun member => fits (List.mem_singleton.mp member).symm)
        (Nat.lt_of_sub_eq_succ rfl) memory
  | setCharAt loc c =>
      obtain ⟨next, sets, held⟩ := holds.setCharAt loc fits
      exact ⟨next, by rw [HeapString.call?, sets]; rfl, held⟩
  | remove index count =>
      obtain ⟨next, removes, held⟩ := holds.remove index count
      exact ⟨next, by rw [HeapString.call?, removes]; rfl, held⟩
  | replace find replacement =>
      obtain ⟨next, replaces, held⟩ := holds.replace find fits
      exact ⟨next, by rw [HeapString.call?, replaces]; rfl, held⟩
  | trim =>
      obtain ⟨next, trims, held⟩ := holds.trim
      exact ⟨next, by rw [HeapString.call?, trims]; rfl, held⟩

end Methods

theorem Holds.run?
    {s : HeapString}
    {text : Option Text}
    {calls : List (Call × Memory)}
    (holds : Holds s text)
    (fits : ∀ call ∈ calls, call.1.Fits) :
    ∃ final,
      s.run? calls = some (final, (textAfter text calls).2) ∧
        Holds final (textAfter text calls).1 := by
  induction calls generalizing s text with
  | nil =>
      exact ⟨s, rfl, holds⟩
  | cons called rest inductionHypothesis =>
      obtain ⟨call, memory⟩ := called
      obtain ⟨fitsCall, fitsRest⟩ := List.forall_mem_cons.mp fits
      obtain ⟨next, calls, held⟩ := holds.call? fitsCall memory
      obtain ⟨final, ran, heldLast⟩ := inductionHypothesis held fitsRest
      refine ⟨final, ?_, heldLast⟩
      rw [HeapString.run?, calls, Option.bind_some, ran]
      rfl

/--
Whatever calls a client makes and whichever of the allocations fail, no call
touches what is not its own, and afterwards the `String` holds the text, has the
room and has returned what the calls make of a text.
-/
theorem client_holds
    {calls : List (Call × Memory)}
    (fits : ∀ call ∈ calls, call.1.Fits) :
    ∃ final,
      init.run? calls = some (final, (textAfter none calls).2) ∧
        Holds final (textAfter none calls).1 :=
  Holds.null.run? fits

/-- A second allocation fails, and so does an assignment. -/
def outOfMemory : List (Call × Memory) :=
  [(.concat [0x61, 0x62], some (fun _ => 0xff)), (.concat [0x63], none),
    (.remove 0 1, none), (.assign [0x64, 0x65, 0x66], none)]

theorem client_holds_outOfMemory :
    ∃ final,
      init.run? (outOfMemory.take 3) = some (final, [true, false, true]) ∧
        Holds final (some ⟨[0x62], 2⟩) ∧
          ∃ last,
            init.run? outOfMemory =
                some (last, [true, false, true, false]) ∧
              Holds last none := by
  obtain ⟨final, ran, held⟩ :=
    @client_holds (outOfMemory.take 3)
      (by simp [outOfMemory, Call.Fits, dataBytes])
  obtain ⟨last, ranAll, heldLast⟩ :=
    @client_holds outOfMemory
      (by simp [outOfMemory, Call.Fits, dataBytes])
  exact ⟨final, ran, held, last, ranAll, heldLast⟩

/-! ## What a client must not do -/

/-- Nothing fits in a buffer without bytes. -/
theorem store_empty
    {capacity len offset : Nat}
    {stored : List (BitVec 8)}
    (some_ : stored ≠ []) :
    store ⟨some [], capacity, len⟩ offset stored = none := by
  have outside : ¬ offset + stored.length ≤ ([] : List (BitVec 8)).length := by
    have positive := List.length_pos_of_ne_nil some_
    rw [List.length_nil]
    omega
  change (storeAt [] offset stored).map _ = none
  rw [storeAt, if_neg outside]
  rfl

/--
`reserve(65535)` asks for no bytes at all, because the one for the zero wraps
around, and notes room for 65535 characters: the zero of an empty `String`, or
else what is appended next, is stored outside of the buffer.
-/
theorem reserve_overruns
    {s : HeapString}
    {text : Option Text}
    (holds : Holds s text)
    {cstr : List (BitVec 8)}
    (appends : cstr ≠ [])
    (inData : cstr.length < dataBytes)
    (behind : Nat → BitVec 8)
    (memory : Memory) :
    s.run? [(.reserve 0xffff, some behind), (.concat cstr, memory)] = none := by
  have short := holds.length_lt
  rw [← holds.len] at short
  have smaller : ¬ (s.buffer.isSome ∧ 0xffff ≤ s.capacity) := by
    intro enough
    cases holds with
    | null =>
        exact Bool.false_ne_true enough.1
    | buffer clean size small =>
        exact absurd enough.2 (Nat.not_le.mpr (Nat.lt_trans small (by decide)))
  have wraps : uint (0xffff + 1) = 0 := rfl
  have noBytes : realloc s.buffer 0 (some behind) = some [] := by
    change some ((s.buffer.getD []).take 0 ++ _) = _
    rw [List.take_zero, List.nil_append, Nat.zero_sub]
    rfl
  have reserves :
      s.call? (some behind) (.reserve 0xffff) =
        if s.len = 0 then none else some (⟨some [], 0xffff, s.len⟩, true) := by
    change s.reserve 0xffff (some behind) = _
    rw [HeapString.reserve, if_neg smaller, changeBuffer, wraps, noBytes]
    change
      (if s.len = 0 then
          (store ⟨some [], 0xffff, s.len⟩ 0 [0]).map _
        else _) = _
    rw [store_empty (List.cons_ne_nil _ _)]
    rfl
  rw [HeapString.run?, reserves]
  by_cases noChars : s.len = 0
  · rw [if_pos noChars]
    rfl
  · change s.len < 2048 at short
    change cstr.length < 2304 at inData
    have longer : ¬ cstr.length = 0 := fun empty =>
      appends (List.eq_nil_of_length_eq_zero empty)
    have room : s.len + cstr.length ≤ 0xffff := by omega
    have overruns :
        concat ⟨some [], 0xffff, s.len⟩ cstr cstr.length memory = none := by
      rw [HeapString.concat, if_neg longer,
        uint_eq (Nat.lt_succ_of_le room), HeapString.reserve,
        if_pos ⟨rfl, room⟩]
      change (store ⟨some [], 0xffff, s.len⟩ s.len (cstr ++ [0])).map _ = none
      rw [store_empty (List.append_ne_nil_of_right_ne_nil _
        (List.cons_ne_nil _ _))]
      rfl
    rw [if_neg noChars, Option.bind_some, HeapString.run?]
    change ((concat ⟨some [], 0xffff, s.len⟩ cstr cstr.length memory).bind
      _).map _ = none
    rw [overruns]
    rfl

end HeapString

end KeyboardEmulator
