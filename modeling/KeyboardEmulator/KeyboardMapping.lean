import KeyboardEmulator.BootKeyboard

namespace KeyboardEmulator

open BootKeyboard (Byte ascii)

/-!
# The key table and the translation of one received byte

`keyboard_map` is declared with `keyCount` rows and initialised with fewer;
the rows without an initialiser are zero.  `translateInput` scans every
declared row, so a zero row takes part in the search like any other.
-/

/-- The eight bytes main hands to `Serial.write`. -/
abbrev KeyboardBuffer :=
  BootKeyboard.Report

/-- One row: received byte, modifier bitmap, usage. -/
abbrev KeyRow :=
  Vector Byte 3

namespace KeyRow

/-- Column 0: the received byte the row is for. -/
def received (row : KeyRow) : Byte :=
  row[0]

/-- Column 1: byte 0 of the report. -/
def modifier (row : KeyRow) : Byte :=
  row[1]

/-- Column 2: byte 2 of the report. -/
def usage (row : KeyRow) : Byte :=
  row[2]

end KeyRow

/-- Declared number of rows. -/
def keyCount : Nat :=
  110

/-- The buffer main writes after every key report. -/
def clearCommand : KeyboardBuffer :=
  #v[0x02, 0x00, 0x00, 0x00, 0x00, 0x00, 0x00, 0x00]

/-- The rows written in the initialiser of `keyboard_map`, in source order. -/
def keyboardMapRows : List KeyRow :=
  [
    #v[0x16, 0x01, 0x19], #v[0x01, 0x01, 0x04],
    #v[0x1A, 0x01, 0x1D], #v[0x03, 0x01, 0x06],
    #v[0x0D, 0x00, 0x28], #v[0x08, 0x00, 0x2A],
    #v[0x1B, 0x00, 0x29], #v[0x1F, 0x00, 0x51],
    #v[0x1D, 0x00, 0x4F], #v[0x1E, 0x00, 0x52],
    #v[0x1C, 0x00, 0x50], #v[ascii 'a', 0x00, 0x04],
    #v[ascii 'b', 0x00, 0x05], #v[ascii 'c', 0x00, 0x06],
    #v[ascii 'd', 0x00, 0x07], #v[ascii 'e', 0x00, 0x08],
    #v[ascii 'f', 0x00, 0x09], #v[ascii 'g', 0x00, 0x0A],
    #v[ascii 'h', 0x00, 0x0B], #v[ascii 'i', 0x00, 0x0C],
    #v[ascii 'j', 0x00, 0x0D], #v[ascii 'k', 0x00, 0x0E],
    #v[ascii 'l', 0x00, 0x0F], #v[ascii 'm', 0x00, 0x10],
    #v[ascii 'n', 0x00, 0x11], #v[ascii 'o', 0x00, 0x12],
    #v[ascii 'p', 0x00, 0x13], #v[ascii 'q', 0x00, 0x14],
    #v[ascii 'r', 0x00, 0x15], #v[ascii 's', 0x00, 0x16],
    #v[ascii 't', 0x00, 0x17], #v[ascii 'u', 0x00, 0x18],
    #v[ascii 'v', 0x00, 0x19], #v[ascii 'w', 0x00, 0x1A],
    #v[ascii 'x', 0x00, 0x1B], #v[ascii 'y', 0x00, 0x1C],
    #v[ascii 'z', 0x00, 0x1D], #v[ascii 'A', 0x02, 0x04],
    #v[ascii 'B', 0x02, 0x05], #v[ascii 'C', 0x02, 0x06],
    #v[ascii 'D', 0x02, 0x07], #v[ascii 'E', 0x02, 0x08],
    #v[ascii 'F', 0x02, 0x09], #v[ascii 'G', 0x02, 0x0A],
    #v[ascii 'H', 0x02, 0x0B], #v[ascii 'I', 0x02, 0x0C],
    #v[ascii 'J', 0x02, 0x0D], #v[ascii 'K', 0x02, 0x0E],
    #v[ascii 'L', 0x02, 0x0F], #v[ascii 'M', 0x02, 0x10],
    #v[ascii 'N', 0x02, 0x11], #v[ascii 'O', 0x02, 0x12],
    #v[ascii 'P', 0x02, 0x13], #v[ascii 'Q', 0x02, 0x14],
    #v[ascii 'R', 0x02, 0x15], #v[ascii 'S', 0x02, 0x16],
    #v[ascii 'T', 0x02, 0x17], #v[ascii 'U', 0x02, 0x18],
    #v[ascii 'V', 0x02, 0x19], #v[ascii 'W', 0x02, 0x1A],
    #v[ascii 'X', 0x02, 0x1B], #v[ascii 'Y', 0x02, 0x1C],
    #v[ascii 'Z', 0x02, 0x1D], #v[ascii '1', 0x00, 0x1E],
    #v[ascii '!', 0x02, 0x1E], #v[ascii '2', 0x00, 0x1F],
    #v[ascii '@', 0x02, 0x1F], #v[ascii '3', 0x00, 0x20],
    #v[ascii '#', 0x02, 0x20], #v[ascii '4', 0x00, 0x21],
    #v[ascii '$', 0x02, 0x21], #v[ascii '5', 0x00, 0x22],
    #v[ascii '%', 0x02, 0x22], #v[ascii '6', 0x00, 0x23],
    #v[ascii '^', 0x02, 0x23], #v[ascii '7', 0x00, 0x24],
    #v[ascii '&', 0x02, 0x24], #v[ascii '8', 0x00, 0x25],
    #v[ascii '*', 0x02, 0x25], #v[ascii '9', 0x00, 0x26],
    #v[ascii '(', 0x02, 0x26], #v[ascii '0', 0x00, 0x27],
    #v[ascii ')', 0x02, 0x27], #v[ascii '?', 0x02, 0x38],
    #v[ascii ' ', 0x00, 0x2C], #v[ascii '-', 0x00, 0x2D],
    #v[ascii '_', 0x02, 0x2D], #v[ascii '=', 0x00, 0x2E],
    #v[ascii '[', 0x00, 0x2F], #v[0x7B, 0x02, 0x2F],
    #v[ascii ']', 0x00, 0x30], #v[0x7D, 0x02, 0x30],
    #v[ascii '~', 0x02, 0x35], #v[ascii '|', 0x02, 0x31],
    #v[ascii ';', 0x00, 0x33], #v[ascii ':', 0x02, 0x33],
    #v[0x60, 0x00, 0x35], #v[ascii ',', 0x00, 0x36],
    #v[ascii '.', 0x00, 0x37], #v[ascii '<', 0x02, 0x36],
    #v[ascii '>', 0x02, 0x37], #v[ascii '/', 0x00, 0x38],
    #v[0x22, 0x02, 0x34], #v[0x27, 0x00, 0x34],
    #v[0x5C, 0x00, 0x31], #v[0x09, 0x00, 0x2B],
    #v[ascii '+', 0x02, 0x2E], #v[0x04, 0x01, 0x07],
    #v[0x14, 0x01, 0x17]
  ]

/-- `keyboard_map[keyCount][3]`: rows without an initialiser are zero. -/
def keyboardMap : List KeyRow :=
  keyboardMapRows ++
    List.replicate (keyCount - keyboardMapRows.length) #v[0, 0, 0]

/-- The bytes that some written row of the table translates. -/
def mappedBytes : List Byte :=
  keyboardMapRows.map KeyRow.received

/-- The scan of `translateInput` over the rows from the current `mapIdx` on. -/
def translateScan
    (inputVal : Byte)
    (buffer : KeyboardBuffer) :
    List KeyRow → Bool × KeyboardBuffer
  | [] =>
      (false, buffer)
  | row :: rest =>
      if inputVal = row.received then
        (true, buffer.setKey row.modifier row.usage)
      else
        translateScan inputVal buffer rest

/-- `translateInput(inputVal, keyboard_buffer)`. -/
def translateInput
    (inputVal : Byte)
    (buffer : KeyboardBuffer) :
    Bool × KeyboardBuffer :=
  translateScan inputVal buffer keyboardMap

/-- `memset(keyboard_buffer, 0, 8)`. -/
def clearedBuffer : KeyboardBuffer :=
  Vector.replicate 8 0

/--
The work of one pass of main's loop on a received byte: clear the buffer and
translate.  The incoming buffer is the one the previous pass left behind.
-/
def mainLoopBody
    (_buffer : KeyboardBuffer)
    (inputVal : Byte) :
    Bool × KeyboardBuffer :=
  translateInput inputVal clearedBuffer

/-- The buffers one pass passes to `Serial.write(buffer, 8)`, in order. -/
def serialWrites : Bool × KeyboardBuffer → List KeyboardBuffer
  | (true, buffer) =>
      [buffer, clearCommand]
  | (false, _) =>
      []

/-- Every buffer main writes while it consumes a list of bytes. -/
def mainLoop : KeyboardBuffer → List Byte → List KeyboardBuffer
  | _, [] =>
      []
  | buffer, inputVal :: rest =>
      let translated := mainLoopBody buffer inputVal
      serialWrites translated ++ mainLoop translated.2 rest

/-- The byte stream main writes to `Serial`. -/
def written (buffer : KeyboardBuffer) (consumed : List Byte) : List Byte :=
  (mainLoop buffer consumed).flatMap Vector.toList

/-- The key reports among the written buffers, without the release reports. -/
def keyReports : KeyboardBuffer → List Byte → List KeyboardBuffer
  | _, [] =>
      []
  | buffer, inputVal :: rest =>
      let translated := mainLoopBody buffer inputVal
      (if translated.1 then [translated.2] else []) ++
        keyReports translated.2 rest

/-- The buffers written for one byte, whatever was consumed before it. -/
def reportsFor (inputVal : Byte) : List KeyboardBuffer :=
  serialWrites (translateInput inputVal clearedBuffer)

/-- The bytes written for one byte. -/
def bytesFor (inputVal : Byte) : List Byte :=
  (reportsFor inputVal).flatMap Vector.toList

/-- The scan finds the first row whose code is the received byte. -/
theorem translateScan_eq_find
    (inputVal : Byte)
    (buffer : KeyboardBuffer)
    (rows : List KeyRow) :
    translateScan inputVal buffer rows =
      match rows.find? (fun row => inputVal = row.received) with
      | some row =>
          (true, buffer.setKey row.modifier row.usage)
      | none =>
          (false, buffer) := by
  induction rows with
  | nil =>
      rfl
  | cons row rest inductionHypothesis =>
      by_cases found : inputVal = row.received
      · simp [translateScan, found]
      · simp [translateScan, found, inductionHypothesis]

/-- A byte is translated exactly when it heads a row, the zero row included. -/
theorem translateInput_fst_iff
    {inputVal : Byte}
    {buffer : KeyboardBuffer} :
    (translateInput inputVal buffer).1 = true ↔
      inputVal ∈ mappedBytes ∨ inputVal = 0 := by
  have zeroRows :
      keyboardMap = keyboardMapRows ++ [#v[0, 0, 0]] := rfl
  rw [translateInput, translateScan_eq_find, zeroRows]
  cases search :
      (keyboardMapRows ++ [#v[0, 0, 0]]).find?
        (fun (row : KeyRow) => inputVal = row.received) with
  | some row =>
      have member := List.mem_of_find?_eq_some search
      have code : inputVal = row.received := by
        simpa using List.find?_some search
      simp only [true_iff]
      rcases List.mem_append.mp member with written | zero
      · exact .inl (List.mem_map.mpr ⟨row, written, code.symm⟩)
      · rw [List.mem_singleton.mp zero] at code
        exact .inr code
  | none =>
      have absent := List.find?_eq_none.mp search
      simp only [Bool.false_eq_true, false_iff, not_or]
      constructor
      · intro mapped
        obtain ⟨row, written, code⟩ := List.mem_map.mp mapped
        exact absent row (List.mem_append_left _ written)
          (by simp [code])
      · intro zero
        exact absent #v[0, 0, 0] (by simp) (decide_eq_true zero)

/-- A translated byte is reported by one row of the table. -/
theorem reportsFor_of_mapped
    {inputVal : Byte}
    (mapped : inputVal ∈ mappedBytes) :
    ∃ row ∈ keyboardMapRows,
      row.received = inputVal ∧
        reportsFor inputVal =
          [BootKeyboard.Report.single row.modifier row.usage, clearCommand] := by
  rw [reportsFor, translateInput, translateScan_eq_find, keyboardMap,
    List.find?_append]
  cases search :
      keyboardMapRows.find? (fun row => inputVal = row.received) with
  | some row =>
      have code : inputVal = row.received := by
        simpa using List.find?_some search
      exact ⟨row, List.mem_of_find?_eq_some search, code.symm, rfl⟩
  | none =>
      obtain ⟨row, written, code⟩ := List.mem_map.mp mapped
      exact (List.find?_eq_none.mp search row written
        (by simp [code])).elim

/-- An unmapped byte other than zero writes nothing. -/
theorem reportsFor_of_unmapped
    {inputVal : Byte}
    (unmapped : inputVal ∉ mappedBytes)
    (nonzero : inputVal ≠ 0) :
    reportsFor inputVal = [] := by
  have refused :
      (translateInput inputVal clearedBuffer).1 = false := by
    rw [← Bool.not_eq_true, translateInput_fst_iff]
    exact not_or.mpr ⟨unmapped, nonzero⟩
  rw [reportsFor]
  generalize translateInput inputVal clearedBuffer = translated at refused
  rcases translated with ⟨found, buffer⟩
  simp only at refused
  rw [refused]
  rfl

/-- The zero byte meets the zero row: an empty key report is written. -/
theorem reportsFor_zero :
    reportsFor 0 = [BootKeyboard.Report.released, clearCommand] := by
  decide +kernel

/-- A translated byte writes two reports, any other byte none. -/
theorem length_bytesFor (inputVal : Byte) :
    (bytesFor inputVal).length =
      if (translateInput inputVal clearedBuffer).1 then 16 else 0 := by
  rw [bytesFor, reportsFor]
  rcases translateInput inputVal clearedBuffer with ⟨found, buffer⟩
  cases found <;> simp [serialWrites]

/-- Each pass clears the buffer first, so passes do not influence each other. -/
theorem mainLoop_eq_flatMap
    (buffer : KeyboardBuffer)
    (consumed : List Byte) :
    mainLoop buffer consumed = consumed.flatMap reportsFor := by
  induction consumed generalizing buffer with
  | nil =>
      rfl
  | cons inputVal rest inductionHypothesis =>
      simp [mainLoop, mainLoopBody, reportsFor, inductionHypothesis]

/-- The written stream is the concatenation of the streams of the bytes. -/
theorem written_eq_flatMap
    (buffer : KeyboardBuffer)
    (consumed : List Byte) :
    written buffer consumed = consumed.flatMap bytesFor := by
  rw [written, mainLoop_eq_flatMap, List.flatMap_assoc]
  rfl

/-- Cutting the written stream into reports gives back the written buffers. -/
theorem reports_written
    (buffer : KeyboardBuffer)
    (consumed : List Byte) :
    BootKeyboard.reports (written buffer consumed) =
      consumed.flatMap reportsFor := by
  rw [written, BootKeyboard.reports_flatMap, mainLoop_eq_flatMap]

end KeyboardEmulator
