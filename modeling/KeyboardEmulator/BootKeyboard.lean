import Mathlib.Data.List.Basic
import Mathlib.Tactic.IntervalCases

/-!
# The boot-keyboard protocol seen from the host

A boot keyboard sends reports of eight bytes: a bitmap of the modifiers
`0xE0..0xE7`, a padding byte and up to six pressed usages, zero meaning none.
The host holds exactly what the latest report says, and types one symbol for
each usage that is new in a report.  Nothing here depends on the device.
-/

namespace BootKeyboard

/-- One byte on the wire. -/
abbrev Byte :=
  BitVec 8

/-- One eight-byte input report. -/
abbrev Report :=
  Vector Byte 8

namespace Report

/-- Bitmap of the modifiers `0xE0..0xE7`. -/
def modifiers (report : Report) : Byte :=
  report[0]

/-- The six usage slots. -/
def usages (report : Report) : List Byte :=
  [report[2], report[3], report[4], report[5], report[6], report[7]]

/-- Byte 2, the first usage slot. -/
def firstUsage (report : Report) : Byte :=
  report[2]

/-- Write a modifier bitmap to byte 0 and a usage to byte 2. -/
def setKey (report : Report) (modifier usage : Byte) : Report :=
  (report.set 0 modifier).set 2 usage

/-- The report of a keyboard with nothing pressed. -/
def released : Report :=
  #v[0, 0, 0, 0, 0, 0, 0, 0]

/-- A report with one modifier bitmap and one pressed usage. -/
def single (modifier usage : Byte) : Report :=
  #v[modifier, 0, usage, 0, 0, 0, 0, 0]

end Report

/-- Cut a byte stream into consecutive reports; an incomplete last one waits. -/
def reports : List Byte → List Report
  | b0 :: b1 :: b2 :: b3 :: b4 :: b5 :: b6 :: b7 :: rest =>
      #v[b0, b1, b2, b3, b4, b5, b6, b7] :: reports rest
  | _ =>
      []

theorem toList_report (report : Report) :
    report.toList =
      [report[0], report[1], report[2], report[3],
        report[4], report[5], report[6], report[7]] := by
  apply List.ext_getElem
  · simp
  · intro index bound _
    have inside : index < 8 := by simpa using bound
    interval_cases index <;> simp

/-- A whole report at the front of the stream is cut off as such. -/
@[simp] theorem reports_append
    (report : Report)
    (rest : List Byte) :
    reports (report.toList ++ rest) = report :: reports rest := by
  rw [toList_report]
  simp only [List.cons_append, List.nil_append, reports,
    List.cons.injEq, and_true]
  apply Vector.ext
  intro index bound
  interval_cases index <;> rfl

/-- What the host believes to be pressed. -/
structure Host where
  modifiers : Byte
  keys : List Byte
  deriving Repr, DecidableEq

namespace Host

/-- Before the first report nothing is held. -/
def idle : Host where
  modifiers := 0
  keys := []

/-- A report replaces everything the host held. -/
def receive (report : Report) : Host where
  modifiers := report.modifiers
  keys := report.usages.filter (· ≠ 0)

/-- The host after every complete report of a byte stream. -/
def after (bytes : List Byte) : Host :=
  (reports bytes).foldl (fun _ report => receive report) idle

/-- Modifier `0xE0 + k` is held. -/
def HoldsModifier (host : Host) (k : Nat) : Prop :=
  host.modifiers.getLsbD k = true

/-- The key with this usage is held. -/
def HoldsKey (host : Host) (usage : Byte) : Prop :=
  usage ∈ host.keys

/-- No modifier and no key is held. -/
def Neutral (host : Host) : Prop :=
  (∀ k, ¬ host.HoldsModifier k) ∧ ∀ usage, ¬ host.HoldsKey usage

/-- Neutrality is a test of the two components. -/
theorem neutral_iff {host : Host} :
    host.Neutral ↔ host.modifiers = 0 ∧ host.keys = [] := by
  constructor
  · rintro ⟨noModifier, noKey⟩
    constructor
    · apply BitVec.eq_of_getLsbD_eq
      intro k _
      simpa [HoldsModifier] using noModifier k
    · exact List.eq_nil_iff_forall_not_mem.mpr noKey
  · rintro ⟨noModifier, noKey⟩
    refine ⟨fun k => ?_, fun usage => ?_⟩
    · simp [HoldsModifier, noModifier]
    · simp [HoldsKey, noKey]

instance (host : Host) : Decidable host.Neutral :=
  decidable_of_iff _ neutral_iff.symm

end Host

/-- Usages pressed by a report that the report before it did not hold. -/
def pressed (before report : Report) : List Byte :=
  report.usages.filter
    (fun usage => usage ≠ 0 && !before.usages.contains usage)

/-- A character as the byte a serial line carries for it. -/
def ascii (c : Char) : Byte :=
  BitVec.ofNat 8 c.toNat

/--
The US-QWERTY keyboard page: usage, symbol without modifier, symbol with Shift.
-/
def usQwertyKeys : List (Byte × Byte × Byte) :=
  (List.range 26).map
      (fun k =>
        (BitVec.ofNat 8 (0x04 + k), BitVec.ofNat 8 (0x61 + k),
          BitVec.ofNat 8 (0x41 + k))) ++
    [(0x1E, ascii '1', ascii '!'), (0x1F, ascii '2', ascii '@'),
      (0x20, ascii '3', ascii '#'), (0x21, ascii '4', ascii '$'),
      (0x22, ascii '5', ascii '%'), (0x23, ascii '6', ascii '^'),
      (0x24, ascii '7', ascii '&'), (0x25, ascii '8', ascii '*'),
      (0x26, ascii '9', ascii '('), (0x27, ascii '0', ascii ')'),
      -- Enter, Escape, Backspace and Tab do not depend on Shift.
      (0x28, 0x0D, 0x0D), (0x29, 0x1B, 0x1B),
      (0x2A, 0x08, 0x08), (0x2B, 0x09, 0x09),
      (0x2C, ascii ' ', ascii ' '),
      (0x2D, ascii '-', ascii '_'), (0x2E, ascii '=', ascii '+'),
      (0x2F, ascii '[', 0x7B), (0x30, ascii ']', 0x7D),
      (0x31, 0x5C, ascii '|'), (0x33, ascii ';', ascii ':'),
      (0x34, 0x27, 0x22), (0x35, 0x60, ascii '~'),
      (0x36, ascii ',', ascii '<'), (0x37, ascii '.', ascii '>'),
      (0x38, ascii '/', ascii '?'),
      -- Arrows: right, left, down, up.
      (0x4F, 0x1D, 0x1D), (0x50, 0x1C, 0x1C),
      (0x51, 0x1F, 0x1F), (0x52, 0x1E, 0x1E)]

/-- Left Ctrl is bit 0 of the modifier bitmap. -/
def leftCtrl : Byte :=
  0x01

/-- Left Shift is bit 1 of the modifier bitmap. -/
def leftShift : Byte :=
  0x02

/-- The symbol a usage types under a modifier bitmap, if the layout has one. -/
def usQwerty (modifiers usage : Byte) : Option Byte :=
  match usQwertyKeys.find? (fun key => key.1 == usage) with
  | none =>
      none
  | some (_, plain, shifted) =>
      if modifiers = 0 then
        some plain
      else if modifiers = leftShift then
        some shifted
      else if modifiers = leftCtrl ∧ 0x04 ≤ usage ∧ usage ≤ 0x1D then
        some (plain &&& 0x1F)
      else
        none

/-- Symbols typed by a sequence of reports, given the report before it. -/
def typedFrom : Report → List Report → List (Option Byte)
  | _, [] =>
      []
  | before, report :: rest =>
      (pressed before report).map (usQwerty report.modifiers) ++
        typedFrom report rest

/-- Symbols typed by a byte stream, starting with nothing held. -/
def typed (bytes : List Byte) : List (Option Byte) :=
  typedFrom Report.released (reports bytes)

/-- A report without usages holds no usage of a later report back. -/
theorem pressed_of_no_usage
    {before : Report}
    (empty : before.usages = [0, 0, 0, 0, 0, 0])
    (report : Report) :
    pressed before report = report.usages.filter (· ≠ 0) := by
  apply List.filter_congr
  intro usage _
  simp [empty]

/-- One pressed usage types one symbol when nothing was pressed before. -/
theorem pressed_single
    {before : Report}
    (empty : before.usages = [0, 0, 0, 0, 0, 0])
    {modifier usage : Byte}
    (isKey : usage ≠ 0) :
    pressed before (Report.single modifier usage) = [usage] := by
  rw [pressed_of_no_usage empty]
  have shape :
      (Report.single modifier usage).usages =
        [usage, 0, 0, 0, 0, 0] := rfl
  rw [shape, List.filter_cons_of_pos (by simpa using isKey)]
  rfl

/-- A report without usages types nothing. -/
theorem pressed_eq_nil
    (before : Report)
    {report : Report}
    (empty : report.usages = [0, 0, 0, 0, 0, 0]) :
    pressed before report = [] := by
  simp [pressed, empty]

/-- Cutting undoes the concatenation of whole reports. -/
theorem reports_flatMap (sent : List Report) :
    reports (sent.flatMap Vector.toList) = sent := by
  induction sent with
  | nil =>
      rfl
  | cons report rest inductionHypothesis =>
      rw [List.flatMap_cons, reports_append, inductionHypothesis]

/-- Cutting a beginning of a stream gives a beginning of its reports. -/
theorem reports_mono
    {past all : List Byte}
    (isPrefix : past <+: all) :
    reports past <+: reports all := by
  obtain ⟨later, rfl⟩ := isPrefix
  induction past using reports.induct with
  | case1 b0 b1 b2 b3 b4 b5 b6 b7 rest inductionHypothesis =>
      simp only [List.cons_append, reports, List.cons_prefix_cons,
        true_and]
      exact inductionHypothesis
  | case2 past incomplete =>
      rw [reports.eq_2 past incomplete]
      exact List.nil_prefix

theorem typedFrom_mono
    {past all : List Report}
    (isPrefix : past <+: all)
    (before : Report) :
    typedFrom before past <+: typedFrom before all := by
  obtain ⟨later, rfl⟩ := isPrefix
  induction past generalizing before with
  | nil =>
      exact List.nil_prefix
  | cons report rest inductionHypothesis =>
      rw [List.cons_append, typedFrom, typedFrom,
        List.prefix_append_right_inj]
      exact inductionHypothesis report

/-- What is typed stays typed whatever bytes follow. -/
theorem typed_mono
    {past all : List Byte}
    (isPrefix : past <+: all) :
    typed past <+: typed all :=
  typedFrom_mono (reports_mono isPrefix) Report.released

/-- Only the last report decides what is held. -/
theorem Host.after_concat
    (sent : List Report)
    (report : Report) :
    Host.after ((sent ++ [report]).flatMap Vector.toList) =
      Host.receive report := by
  rw [Host.after, reports_flatMap]
  simp

@[simp] theorem Host.after_nil : Host.after [] = Host.idle :=
  rfl

end BootKeyboard
