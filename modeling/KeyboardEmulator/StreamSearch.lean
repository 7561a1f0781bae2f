import Mathlib.Data.List.Basic

/-!
# Searching a stream

A search reads a stream one element after the other and stops where one of its
patterns ends.  All it keeps is, for each pattern, how much of it the text read
so far ends with.  The next element may make that longer; otherwise what is left
is a shorter beginning of the pattern that the old one also ends with.
-/

namespace StreamSearch

variable {α : Type}

/-! ## One pattern -/

/-- No more than `k` elements of the pattern are what the text ends with. -/
def NoLonger (pattern text : List α) (k : Nat) : Prop :=
  ∀ j ≤ pattern.length, pattern.take j <:+ text → j ≤ k

/-- The text ends with `k` elements of the pattern, which are not all of it. -/
structure Longest (pattern text : List α) (k : Nat) : Prop where
  within : k < pattern.length
  ends : pattern.take k <:+ text
  noLonger : NoLonger pattern text k

theorem Longest.not_suffix
    {pattern text : List α}
    {k : Nat}
    (longest : Longest pattern text k) :
    ¬ pattern <:+ text := by
  intro complete
  have whole : pattern.take pattern.length <:+ text := by
    rw [List.take_length]
    exact complete
  exact Nat.not_le_of_lt longest.within
    (longest.noLonger _ (Nat.le_refl _) whole)

/-- Nothing has been read. -/
theorem Longest.nil
    {pattern : List α}
    (nonempty : pattern ≠ []) :
    Longest pattern [] 0 := by
  refine ⟨List.length_pos_iff.mpr nonempty, List.nil_suffix, ?_⟩
  intro j within ends
  have short := ends.length_le
  rw [List.length_take, List.length_nil] at short
  omega

/-- The next element extends the beginnings that it continues, and no others. -/
theorem take_succ_suffix_concat
    {pattern text : List α}
    {j : Nat}
    {c : α}
    (within : j < pattern.length) :
    pattern.take (j + 1) <:+ text ++ [c] ↔
      pattern.take j <:+ text ∧ pattern[j]? = some c := by
  rw [List.take_succ_eq_append_getElem within,
    List.getElem?_eq_getElem within]
  constructor
  · intro extended
    rcases List.suffix_concat_iff.mp extended with empty | ⟨t, same, ends⟩
    · exact absurd empty (List.append_ne_nil_of_right_ne_nil _
        (List.cons_ne_nil _ _))
    · obtain ⟨taken, last⟩ := List.append_inj' same rfl
      rw [taken, (List.cons.inj last).1]
      exact ⟨ends, rfl⟩
  · rintro ⟨ends, isNext⟩
    rw [Option.some.inj isNext]
    exact List.suffix_append_self_iff.mpr ends

/-- A beginning ends the text if the longest one ends with it. -/
theorem Longest.take_suffix_iff
    {pattern text : List α}
    {k j : Nat}
    (longest : Longest pattern text k)
    (shorter : j ≤ k) :
    pattern.take j <:+ text ↔ pattern.take j <:+ pattern.take k := by
  constructor
  · intro ends
    refine List.suffix_of_suffix_length_le ends longest.ends ?_
    rw [List.length_take, List.length_take]
    omega
  · intro ends
    exact ends.trans longest.ends

/-- A beginning ends with another where they agree. -/
theorem take_suffix_take_iff
    {pattern : List α}
    {j k : Nat}
    (shorter : j ≤ k)
    (within : k ≤ pattern.length) :
    pattern.take j <:+ pattern.take k ↔
      ∀ i < j, pattern[i]? = pattern[i + (k - j)]? := by
  have lengths :
      (pattern.take k).length - (pattern.take j).length = k - j := by
    rw [List.length_take, List.length_take]
    omega
  rw [List.suffix_iff_eq_drop, lengths]
  constructor
  · intro same i inTake
    have element := congrArg (·[i]?) same
    rw [List.getElem?_take_of_lt inTake, List.getElem?_drop,
      List.getElem?_take_of_lt (by omega)] at element
    rw [element, Nat.add_comm]
  · intro agree
    refine List.ext_getElem? (fun i => ?_)
    rw [List.getElem?_drop]
    by_cases inTake : i < j
    · rw [List.getElem?_take_of_lt inTake,
        List.getElem?_take_of_lt (by omega), agree i inTake, Nat.add_comm]
    · rw [List.getElem?_take_eq_none (by omega),
        List.getElem?_take_eq_none (by omega)]

/-! ## The next element -/

section Next

variable {pattern text : List α} {k : Nat} {c : α}

/-- The element that the pattern waits for. -/
theorem Longest.next
    (longest : Longest pattern text k)
    (isNext : pattern[k]? = some c)
    (more : k + 1 < pattern.length) :
    Longest pattern (text ++ [c]) (k + 1) := by
  refine ⟨more,
    (take_succ_suffix_concat longest.within).mpr ⟨longest.ends, isNext⟩, ?_⟩
  intro j within ends
  cases j with
  | zero =>
      exact Nat.zero_le _
  | succ j =>
      have ended := (take_succ_suffix_concat within).mp ends
      exact Nat.succ_le_succ (longest.noLonger j (by omega) ended.1)

/-- The last element of the pattern. -/
theorem Longest.complete
    (longest : Longest pattern text k)
    (isNext : pattern[k]? = some c)
    (last : k + 1 = pattern.length) :
    pattern <:+ text ++ [c] := by
  have ends :=
    (take_succ_suffix_concat longest.within).mpr ⟨longest.ends, isNext⟩
  rwa [last, List.take_length] at ends

/-- Another element: the beginning does not get longer. -/
theorem Longest.noLonger_concat
    (longest : Longest pattern text k)
    (other : pattern[k]? ≠ some c) :
    NoLonger pattern (text ++ [c]) k := by
  intro j within ends
  cases j with
  | zero =>
      exact Nat.zero_le _
  | succ j =>
      obtain ⟨ended, isNext⟩ := (take_succ_suffix_concat within).mp ends
      have atMost := longest.noLonger j (by omega) ended
      have apart : j ≠ k := by
        rintro rfl
        exact other isNext
      omega

/-- A candidate that is none. -/
theorem NoLonger.pred
    {j : Nat}
    (noLonger : NoLonger pattern text (j + 1))
    (fails : ¬ pattern.take (j + 1) <:+ text) :
    NoLonger pattern text j := by
  intro i within ends
  have atMost := noLonger i within ends
  have apart : i ≠ j + 1 := by
    rintro rfl
    exact fails ends
  omega

/-- None is left. -/
theorem NoLonger.longest_zero
    (noLonger : NoLonger pattern text 0)
    (nonempty : 0 < pattern.length) :
    Longest pattern text 0 :=
  ⟨nonempty, List.nil_suffix, noLonger⟩

end Next

/-! ## Many patterns -/

/-- No pattern ends here. -/
def NoneEnds (patterns : List (List α)) (text : List α) : Prop :=
  ∀ pattern ∈ patterns, ¬ pattern <:+ text

/-- A pattern ends here, and none before it in the list does. -/
structure EndsFirst
    (patterns : List (List α))
    (text : List α)
    (p : Nat) : Prop where
  ends : ∃ pattern, patterns[p]? = some pattern ∧ pattern <:+ text
  first : NoneEnds (patterns.take p) text

/--
The outcome of a search and what it leaves in the stream: it stops where for the
first time a pattern ends, or it reads everything.
-/
inductive Searched (patterns : List (List α)) (stream : List α) :
    Option Nat → List α → Prop where
  | found
      {before rest : List α}
      {p : Nat}
      (split : stream = before ++ rest)
      (ends : EndsFirst patterns before p)
      (first :
        ∀ text, text <+: before → text ≠ before → NoneEnds patterns text) :
      Searched patterns stream (some p) rest
  | missed
      (nowhere : ∀ text, text <+: stream → NoneEnds patterns text) :
      Searched patterns stream none []

theorem EndsFirst.le
    {patterns : List (List α)}
    {text : List α}
    {p q : Nat}
    (one : EndsFirst patterns text p)
    (other : EndsFirst patterns text q) :
    p ≤ q := by
  obtain ⟨pattern, here, isSuffix⟩ := other.ends
  refine Nat.le_of_not_lt (fun earlier => ?_)
  refine one.first pattern ?_ isSuffix
  refine List.mem_of_getElem? (?_ : (patterns.take p)[q]? = some pattern)
  rw [List.getElem?_take_of_lt earlier, here]

end StreamSearch
