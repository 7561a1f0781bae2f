import KeyboardEmulator.StreamSearch

namespace KeyboardEmulator

open StreamSearch (EndsFirst Longest NoLonger NoneEnds Searched)

/-!
# Finding strings in a stream

`findMulti` keeps an index into each target and no other table: where a
character does not match it walks back in the target.  It stops at the first
character of the stream where a target ends, and leaves the rest unread.
-/

/-- A stream: the bytes that each arrive before `timedRead` times out. -/
abbrev Stream :=
  List (BitVec 8)

namespace Stream

/-- `timedRead()`: the next byte, or -1 on timeout. -/
def timedRead : Stream → Int × Stream
  | [] => (-1, [])
  | c :: rest => (c.toNat, rest)

/-- A target: its characters, which are signed, and the index into them. -/
structure MultiTarget where
  str : List Int
  index : Nat

/-- The comparison of the rest of the found string, up to a mismatch. -/
def agrees (str : List Int) (index diff : Nat) : Bool :=
  (List.range index).all (fun i => str[i]? == str[i + diff]?)

/-- The loop that walks back from `origIndex`; its index after `--t->index`. -/
def walkBack (str : List Int) (c : Int) (origIndex : Nat) : Nat → Nat
  | 0 => 0
  | index + 1 =>
      if str[index]? ≠ some c then
        walkBack str c origIndex index
      else if index = 0 then
        index + 1
      else if agrees str index (origIndex - index) then
        index + 1
      else
        walkBack str c origIndex index

/-- One target reads a character; `none` when it is found. -/
def MultiTarget.read (t : MultiTarget) (c : Int) : Option MultiTarget :=
  if t.str[t.index]? = some c then
    if t.index + 1 = t.str.length then
      none
    else
      some { t with index := t.index + 1 }
  else if t.index = 0 then
    some t
  else
    some { t with index := walkBack t.str c t.index t.index }

/-- The loop over the targets: the first that is found, or all of them. -/
def readAll (c : Int) : List MultiTarget → Except Nat (List MultiTarget)
  | [] => .ok []
  | t :: rest =>
      match t.read c with
      | none => .error 0
      | some t' =>
          match readAll c rest with
          | .error p => .error (p + 1)
          | .ok rest' => .ok (t' :: rest')

/-- The loop over the stream. -/
def findLoop : List MultiTarget → Stream → Int × Stream
  | _, [] => (-1, [])
  | targets, b :: stream =>
      match readAll b.toNat targets with
      | .error p => (p, stream)
      | .ok targets' => findLoop targets' stream

/-- `findMulti(targets, tCount)`. -/
def findMulti (targets : List MultiTarget) (stream : Stream) : Int × Stream :=
  match targets.findIdx? (fun t => t.str.length == 0) with
  | some p => (p, stream)
  | none => findLoop targets stream

/-- `{str, len, 0}` of characters that a caller gives as bytes. -/
def target (str : List (BitVec 8)) : MultiTarget where
  str := str.map BitVec.toInt
  index := 0

/-- `findUntil(target, targetLen, terminator, termLen)`; none for `NULL`. -/
def findUntil
    (target : List (BitVec 8))
    (terminator : Option (List (BitVec 8)))
    (stream : Stream) : Bool × Stream :=
  let result :=
    match terminator with
    | none =>
        findMulti [Stream.target target] stream
    | some terminator =>
        findMulti [Stream.target target, Stream.target terminator] stream
  (result.1 == 0, result.2)

/-- `find(target, length)`. -/
def find (target : List (BitVec 8)) (stream : Stream) : Bool × Stream :=
  findUntil target none stream

/-! ## The index -/

theorem agrees_iff
    {str : List Int}
    {j k : Nat}
    (shorter : j ≤ k)
    (within : k ≤ str.length) :
    agrees str j (k - j) = true ↔ str.take j <:+ str.take k := by
  rw [StreamSearch.take_suffix_take_iff shorter within, agrees,
    List.all_eq_true]
  constructor
  · intro all i inTake
    exact eq_of_beq (all i (List.mem_range.mpr inTake))
  · intro agree i member
    exact beq_iff_eq.mpr (agree i (List.mem_range.mp member))

/-- The walk back ends at the longest beginning that is left. -/
theorem walkBack_longest
    {str text : List Int}
    {c : Int}
    {k index : Nat}
    (longest : Longest str text k)
    (walked : index ≤ k)
    (noLonger : NoLonger str (text ++ [c]) index) :
    Longest str (text ++ [c]) (walkBack str c k index) := by
  have within := longest.within
  induction index with
  | zero =>
      exact noLonger.longest_zero (by omega)
  | succ index inductionHypothesis =>
      have below : index < str.length := by omega
      have ends :
          str.take (index + 1) <:+ text ++ [c] ↔
            str.take index <:+ text ∧ str[index]? = some c :=
        StreamSearch.take_succ_suffix_concat below
      have shorter :
          ¬ str.take (index + 1) <:+ text ++ [c] →
            Longest str (text ++ [c]) (walkBack str c k index) :=
        fun fails => inductionHypothesis (by omega) (noLonger.pred fails)
      have candidate :
          str.take (index + 1) <:+ text ++ [c] →
            Longest str (text ++ [c]) (index + 1) :=
        fun ended => ⟨by omega, ended, noLonger⟩
      rw [walkBack]
      split
      next other =>
        exact shorter (fun ended => other (ends.mp ended).2)
      next same =>
        have isNext : str[index]? = some c := not_not.mp same
        split
        next first =>
          subst first
          exact candidate (ends.mpr ⟨List.nil_suffix, isNext⟩)
        next =>
          have border :
              agrees str index (k - index) = true ↔ str.take index <:+ text :=
            (agrees_iff (by omega) (Nat.le_of_lt within)).trans
              (longest.take_suffix_iff (by omega)).symm
          split
          next agree =>
            exact candidate (ends.mpr ⟨border.mp agree, isNext⟩)
          next differ =>
            exact shorter (fun ended => differ (border.mpr (ends.mp ended).1))

/-- A target that reads its last character has ended. -/
theorem MultiTarget.ends_of_read
    {t : MultiTarget}
    {text : List Int}
    {c : Int}
    (longest : Longest t.str text t.index)
    (found : t.read c = none) :
    t.str <:+ text ++ [c] := by
  rw [MultiTarget.read] at found
  by_cases isNext : t.str[t.index]? = some c
  · rw [if_pos isNext] at found
    by_cases last : t.index + 1 = t.str.length
    · exact longest.complete isNext last
    · rw [if_neg last] at found
      contradiction
  · rw [if_neg isNext] at found
    split at found <;> contradiction

/-- A target that reads any other character knows what it has of it. -/
theorem MultiTarget.longest_of_read
    {t t' : MultiTarget}
    {text : List Int}
    {c : Int}
    (longest : Longest t.str text t.index)
    (read : t.read c = some t') :
    t'.str = t.str ∧ Longest t'.str (text ++ [c]) t'.index := by
  have within := longest.within
  rw [MultiTarget.read] at read
  by_cases isNext : t.str[t.index]? = some c
  · rw [if_pos isNext] at read
    by_cases last : t.index + 1 = t.str.length
    · rw [if_pos last] at read
      contradiction
    · rw [if_neg last] at read
      obtain rfl := Option.some.inj read
      exact ⟨rfl, longest.next isNext (by omega)⟩
  · have noLonger := longest.noLonger_concat isNext
    rw [if_neg isNext] at read
    by_cases first : t.index = 0
    · rw [if_pos first] at read
      obtain rfl := Option.some.inj read
      rw [first] at noLonger ⊢
      exact ⟨rfl, noLonger.longest_zero (by omega)⟩
    · rw [if_neg first] at read
      obtain rfl := Option.some.inj read
      exact ⟨rfl, walkBack_longest longest (Nat.le_refl _) noLonger⟩

/-! ## The search -/

/-- Each target knows what it has of the text. -/
def Reading (targets : List MultiTarget) (text : List Int) : Prop :=
  ∀ t ∈ targets, Longest t.str text t.index

theorem Reading.noneEnds
    {targets : List MultiTarget}
    {text : List Int}
    (reading : Reading targets text) :
    NoneEnds (targets.map MultiTarget.str) text := by
  intro pattern member
  obtain ⟨t, inTargets, rfl⟩ := List.mem_map.mp member
  exact (reading t inTargets).not_suffix

/-- None of the targets ends with the character. -/
theorem Reading.readAll_ok
    {targets targets' : List MultiTarget}
    {text : List Int}
    {c : Int}
    (reading : Reading targets text)
    (read : readAll c targets = .ok targets') :
    targets'.map MultiTarget.str = targets.map MultiTarget.str ∧
      Reading targets' (text ++ [c]) := by
  induction targets generalizing targets' with
  | nil =>
      obtain rfl := Except.ok.inj read
      exact ⟨rfl, fun t member => absurd member List.not_mem_nil⟩
  | cons t rest inductionHypothesis =>
      obtain ⟨longest, readingRest⟩ := List.forall_mem_cons.mp reading
      rw [readAll] at read
      cases first : t.read c with
      | none =>
          rw [first] at read
          contradiction
      | some t' =>
          cases others : readAll c rest with
          | error p =>
              rw [first, others] at read
              contradiction
          | ok rest' =>
              rw [first, others] at read
              obtain rfl := Except.ok.inj read
              obtain ⟨sameRest, readingRest'⟩ :=
                inductionHypothesis readingRest others
              obtain ⟨same, longest'⟩ := t.longest_of_read longest first
              refine ⟨?_, List.forall_mem_cons.mpr ⟨longest', readingRest'⟩⟩
              rw [List.map_cons, List.map_cons, same, sameRest]

/-- The first of the targets that end with the character. -/
theorem Reading.readAll_error
    {targets : List MultiTarget}
    {text : List Int}
    {c : Int}
    {p : Nat}
    (reading : Reading targets text)
    (found : readAll c targets = .error p) :
    EndsFirst (targets.map MultiTarget.str) (text ++ [c]) p := by
  induction targets generalizing p with
  | nil =>
      contradiction
  | cons t rest inductionHypothesis =>
      obtain ⟨longest, readingRest⟩ := List.forall_mem_cons.mp reading
      rw [readAll] at found
      cases first : t.read c with
      | none =>
          rw [first] at found
          obtain rfl := Except.error.inj found
          exact {
            ends := ⟨t.str, rfl, t.ends_of_read longest first⟩
            first := fun pattern member => absurd member List.not_mem_nil }
      | some t' =>
          obtain ⟨same, longest'⟩ := t.longest_of_read longest first
          cases others : readAll c rest with
          | ok rest' =>
              rw [first, others] at found
              contradiction
          | error q =>
              rw [first, others] at found
              obtain rfl := Except.error.inj found
              have later := inductionHypothesis readingRest others
              refine ⟨later.ends, ?_⟩
              rw [List.map_cons, List.take_succ_cons]
              refine List.forall_mem_cons.mpr ⟨?_, later.first⟩
              rw [← same]
              exact longest'.not_suffix

/-- `return t - targets`, and -1 on timeout. -/
def returned : Option Nat → Int
  | some p => p
  | none => -1

/-- The characters that `timedRead` returns. -/
def chars (stream : Stream) : List Int :=
  stream.map (fun b => (b.toNat : Int))

/-- The search goes on from what has been read. -/
theorem findLoop_searched
    {targets : List MultiTarget}
    {text : List Int}
    (reading : Reading targets text)
    (nowhere :
      ∀ beginning, beginning <+: text →
        NoneEnds (targets.map MultiTarget.str) beginning)
    (stream : Stream) :
    ∃ result,
      (findLoop targets stream).1 = returned result ∧
        Searched (targets.map MultiTarget.str) (text ++ chars stream)
          result (chars (findLoop targets stream).2) := by
  induction stream generalizing targets text with
  | nil =>
      refine ⟨none, rfl, .missed ?_⟩
      rw [chars, List.map_nil, List.append_nil]
      exact nowhere
  | cons b stream inductionHypothesis =>
      have joined :
          text ++ chars (b :: stream) =
            text ++ [(b.toNat : Int)] ++ chars stream := by
        simp [chars]
      rw [findLoop, joined]
      cases read : readAll b.toNat targets with
      | error p =>
          refine ⟨some p, rfl,
            .found rfl (reading.readAll_error read) ?_⟩
          intro beginning isPrefix shorter
          rcases List.prefix_concat_iff.mp isPrefix with whole | earlier
          · exact absurd whole shorter
          · exact nowhere beginning earlier
      | ok targets' =>
          obtain ⟨same, reading'⟩ := reading.readAll_ok read
          rw [← same] at nowhere ⊢
          refine inductionHypothesis reading' ?_
          intro beginning isPrefix
          rcases List.prefix_concat_iff.mp isPrefix with rfl | earlier
          · exact reading'.noneEnds
          · exact nowhere beginning earlier

/-- An empty target ends before anything is read. -/
theorem endsFirst_nil
    {targets : List MultiTarget}
    {p : Nat}
    (empty : targets.findIdx? (fun t => t.str.length == 0) = some p) :
    EndsFirst (targets.map MultiTarget.str) [] p := by
  obtain ⟨within, isEmpty, first⟩ :=
    List.findIdx?_eq_some_iff_getElem.mp empty
  have nothing : targets[p].str = [] :=
    List.eq_nil_of_length_eq_zero (eq_of_beq isEmpty)
  refine ⟨⟨[], ?_, List.nil_suffix⟩, ?_⟩
  · rw [List.getElem?_map, List.getElem?_eq_getElem within, Option.map_some,
      nothing]
  · intro pattern member ends
    obtain ⟨q, inTake, isPattern⟩ := List.mem_iff_getElem.mp member
    have before : q < p := by
      rw [List.length_take] at inTake
      omega
    rw [List.getElem_take, List.getElem_map, List.eq_nil_of_suffix_nil ends]
      at isPattern
    refine first q before ?_
    rw [isPattern]
    rfl

/-- The search of `findMulti` for targets whose indices are zero. -/
theorem findMulti_searched
    {targets : List MultiTarget}
    (fresh : ∀ t ∈ targets, t.index = 0)
    (stream : Stream) :
    ∃ result,
      (findMulti targets stream).1 = returned result ∧
        Searched (targets.map MultiTarget.str) (chars stream)
          result (chars (findMulti targets stream).2) := by
  rw [findMulti]
  cases empty : targets.findIdx? (fun t => t.str.length == 0) with
  | some p =>
      refine ⟨some p, rfl, .found rfl (endsFirst_nil empty) ?_⟩
      intro beginning isPrefix shorter
      exact absurd (List.prefix_nil.mp isPrefix) shorter
  | none =>
      have reading : Reading targets [] := by
        intro t member
        have nonempty :=
          List.findIdx?_eq_none_iff.mp empty t member
        rw [fresh t member]
        refine .nil (fun isEmpty => ?_)
        rw [isEmpty] at nonempty
        exact Bool.noConfusion nonempty
      refine findLoop_searched reading ?_ stream
      intro beginning isPrefix
      rw [List.prefix_nil.mp isPrefix]
      exact reading.noneEnds

theorem fresh_target (targets : List (List (BitVec 8))) :
    ∀ t ∈ targets.map target, t.index = 0 := by
  intro t member
  obtain ⟨str, -, rfl⟩ := List.mem_map.mp member
  rfl

/-- A signed character equals a byte if it is not negative. -/
theorem toInt_eq_toNat_iff (a b : BitVec 8) :
    a.toInt = b.toNat ↔ a.msb = false ∧ a = b := by
  rw [BitVec.toInt_eq_msb_cond]
  cases negative : a.msb with
  | false =>
      simp only [Bool.false_eq_true, if_false, true_and]
      exact ⟨fun same => BitVec.eq_of_toNat_eq (Int.ofNat.inj same),
        fun same => by rw [same]⟩
  | true =>
      have bound := a.isLt
      simp only [if_true, Bool.true_eq_false, false_and, iff_false]
      omega

/-- What the characters of a target are equal to. -/
theorem map_toInt_eq_chars_iff (str text : List (BitVec 8)) :
    str.map BitVec.toInt = chars text ↔
      (∀ b ∈ str, b.msb = false) ∧ str = text := by
  induction str generalizing text with
  | nil =>
      cases text <;> simp [chars]
  | cons a str inductionHypothesis =>
      cases text with
      | nil =>
          simp [chars]
      | cons b text =>
          have rest := inductionHypothesis text
          rw [chars] at rest
          rw [chars, List.map_cons, List.map_cons, List.cons_eq_cons,
            toInt_eq_toNat_iff, rest, List.forall_mem_cons,
            List.cons_eq_cons]
          tauto

theorem map_toInt_infix_chars_iff (str stream : List (BitVec 8)) :
    str.map BitVec.toInt <:+: chars stream ↔
      (∀ b ∈ str, b.msb = false) ∧ str <:+: stream := by
  constructor
  · rintro ⟨before, after, joined⟩
    obtain ⟨front, rest, split, isFront, -⟩ :=
      List.append_eq_map_iff.mp joined
    obtain ⟨skipped, found, splitFront, -, isFound⟩ :=
      List.append_eq_map_iff.mp isFront.symm
    obtain ⟨positive, same⟩ :=
      (map_toInt_eq_chars_iff str found).mp isFound.symm
    refine ⟨positive, skipped, rest, ?_⟩
    rw [same, ← splitFront, split]
  · rintro ⟨positive, before, after, rfl⟩
    have same := (map_toInt_eq_chars_iff str str).mpr ⟨positive, rfl⟩
    refine ⟨chars before, chars after, ?_⟩
    rw [same]
    simp [chars]

/--
`find` finds what occurs in the stream, if it has no characters from 128 on:
those are negative, and no byte that `timedRead` returns is.
-/
theorem find_iff
    (str : List (BitVec 8))
    (stream : Stream) :
    (find str stream).1 = true ↔
      (∀ b ∈ str, b.msb = false) ∧ str <:+: stream := by
  obtain ⟨result, isResult, searched⟩ :=
    findMulti_searched (fresh_target [str]) stream
  rw [← map_toInt_infix_chars_iff, find, findUntil, beq_iff_eq]
  rw [List.map_singleton] at isResult searched
  rw [List.map_singleton] at searched
  rw [isResult]
  generalize chars (findMulti [target str] stream).2 = rest at searched
  cases searched with
  | found split ends first =>
      rename_i before p
      obtain ⟨pattern, here, isSuffix⟩ := ends.ends
      cases p with
      | succ p =>
          contradiction
      | zero =>
          obtain rfl := Option.some.inj here
          have occurs : (target str).str <:+: chars stream := by
            rw [split]
            exact isSuffix.isInfix.trans (List.prefix_append _ _).isInfix
          exact iff_of_true rfl occurs
  | missed nowhere =>
      have occursNot : ¬ (target str).str <:+: chars stream := by
        rintro ⟨before, after, joined⟩
        refine nowhere (before ++ (target str).str) ?_ (target str).str
          List.mem_cons_self (List.suffix_append _ _)
        rw [← joined]
        exact List.prefix_append _ _
      exact iff_of_false (by decide) occursNot

/--
`findUntil` finds a target at whose end the terminator has not ended before; it
prefers the target where both end.
-/
theorem findUntil_iff
    (str terminator : List (BitVec 8))
    (stream : Stream) :
    (findUntil str (some terminator) stream).1 = true ↔
      ∃ text,
        text <+: chars stream ∧
          (target str).str <:+ text ∧
            ∀ earlier, earlier <+: text → earlier ≠ text →
              ¬ (target terminator).str <:+ earlier := by
  obtain ⟨result, isResult, searched⟩ :=
    findMulti_searched (fresh_target [str, terminator]) stream
  rw [findUntil, beq_iff_eq]
  simp only [List.map_cons, List.map_nil] at isResult searched
  rw [isResult]
  generalize
    chars (findMulti [target str, target terminator] stream).2 = rest
      at searched
  cases searched with
  | missed nowhere =>
      refine iff_of_false (by decide) ?_
      rintro ⟨text, isPrefix, ends, -⟩
      exact nowhere text isPrefix _ List.mem_cons_self ends
  | @found before rest p split ends first =>
      have isPrefix : before <+: chars stream :=
        split ▸ List.prefix_append before rest
      constructor
      · intro isFirst
        obtain rfl : p = 0 := Int.ofNat.inj isFirst
        obtain ⟨pattern, here, isSuffix⟩ := ends.ends
        obtain rfl := Option.some.inj here
        exact ⟨before, isPrefix, isSuffix, fun earlier shorter different =>
          first earlier shorter different _
            (List.mem_cons_of_mem _ List.mem_cons_self)⟩
      · rintro ⟨text, textPrefix, endsText, notBefore⟩
        -- the search stops at the end of this occurrence, or earlier
        have notLater : before <+: text := by
          rcases List.prefix_or_prefix_of_prefix isPrefix textPrefix with
            shorter | longer
          · exact shorter
          · by_cases same : text = before
            · subst same
              exact List.prefix_refl _
            · exact absurd endsText
                (first text longer same _ List.mem_cons_self)
        cases p with
        | zero =>
            rfl
        | succ p =>
            obtain ⟨pattern, here, isSuffix⟩ := ends.ends
            have isTerminator : pattern = (target terminator).str := by
              cases p with
              | zero =>
                  exact (Option.some.inj here).symm
              | succ p =>
                  contradiction
            rw [isTerminator] at isSuffix
            by_cases same : before = text
            · rw [← same] at endsText
              exact absurd endsText (ends.first _ List.mem_cons_self)
            · exact absurd isSuffix (notBefore before notLater same)

end Stream

end KeyboardEmulator
