import Mathlib.Algebra.Order.Ring.Nat
import Mathlib.Data.List.Basic
import Mathlib.Data.List.Chain

/-!
# Frames on a line

A line has a level at each cycle of a clock.  It is driven by writes at
increasing times, and the level between two writes is that of the first.  A
receiver that looks at the line at regular times sees the levels in order as
long as each time falls into its level; as the times are regular this only has
to be known for the first and the last.

A frame is a start level and then data, and the line is idle between frames.  A
receiver waits for a change, samples, and waits again.  It hears what the line
carries if it starts to wait again while the line is idle behind each frame.
-/

namespace SerialFrame

variable {α : Type}

/-- The level at a time, from the writes in the order of their times. -/
def levelAt (idle : α) (writes : List (Nat × α)) (t : Nat) : α :=
  writes.foldl
    (fun level write => if write.1 ≤ t then write.2 else level) idle

/-- Writes of the given levels, the `k`-th at time `edge k`. -/
def timed (edge : Nat → Nat) : List α → List (Nat × α)
  | [] => []
  | level :: rest => (edge 0, level) :: timed (fun k => edge (k + 1)) rest

/-- Writes yet to come do not show. -/
theorem levelAt_of_later
    (idle : α)
    {writes : List (Nat × α)}
    {t : Nat}
    (later : ∀ write ∈ writes, t < write.1) :
    levelAt idle writes t = idle := by
  induction writes generalizing idle with
  | nil =>
      rfl
  | cons write rest inductionHypothesis =>
      have first : ¬ write.1 ≤ t :=
        Nat.not_le_of_lt (later write List.mem_cons_self)
      rw [levelAt, List.foldl_cons, if_neg first]
      exact inductionHypothesis idle
        (fun other member => later other (List.mem_cons_of_mem _ member))

/-- A write shows from its time on until the next. -/
theorem levelAt_of_last
    (idle level : α)
    (early : List (Nat × α))
    {late : List (Nat × α)}
    {s t : Nat}
    (written : s ≤ t)
    (later : ∀ write ∈ late, t < write.1) :
    levelAt idle (early ++ (s, level) :: late) t = level := by
  rw [levelAt, List.foldl_append, List.foldl_cons, if_pos written]
  exact levelAt_of_later level later

theorem timed_concat
    (edge : Nat → Nat)
    (levels : List α)
    (level : α) :
    timed edge (levels ++ [level]) =
      timed edge levels ++ [(edge levels.length, level)] := by
  induction levels generalizing edge with
  | nil =>
      rfl
  | cons first rest inductionHypothesis =>
      rw [List.cons_append, timed, timed, inductionHypothesis]
      rfl

theorem timed_congr
    {edge other : Nat → Nat}
    {levels : List α}
    (same : ∀ k < levels.length, edge k = other k) :
    timed edge levels = timed other levels := by
  induction levels generalizing edge other with
  | nil =>
      rfl
  | cons level rest inductionHypothesis =>
      rw [timed, timed, same 0 (Nat.succ_pos _),
        inductionHypothesis
          (fun k within => same (k + 1) (Nat.succ_lt_succ within))]

theorem edge_zero_le
    {edge : Nat → Nat}
    {n : Nat}
    (rising : ∀ k < n, edge k ≤ edge (k + 1)) :
    edge 0 ≤ edge n := by
  induction n with
  | zero =>
      exact Nat.le_refl _
  | succ n inductionHypothesis =>
      have earlier :=
        inductionHypothesis
          (fun k within => rising k (Nat.lt_succ_of_lt within))
      exact earlier.trans (rising n (Nat.lt_succ_self n))

/-- The times of a series of writes are at least its first. -/
theorem le_of_mem_timed
    {edge : Nat → Nat}
    {levels : List α}
    (rising : ∀ k < levels.length, edge k ≤ edge (k + 1))
    {write : Nat × α}
    (member : write ∈ timed edge levels) :
    edge 0 ≤ write.1 := by
  induction levels generalizing edge with
  | nil =>
      contradiction
  | cons level rest inductionHypothesis =>
      rcases List.mem_cons.mp member with rfl | later
      · exact Nat.le_refl _
      · have next : edge 1 ≤ write.1 :=
          inductionHypothesis
            (fun k within => rising (k + 1) (Nat.succ_lt_succ within)) later
        exact (rising 0 (Nat.succ_pos _)).trans next

/-- A series of writes puts its levels on the line one after the other. -/
theorem levelAt_timed
    (idle : α)
    (early : List (Nat × α))
    {edge : Nat → Nat}
    {levels : List α}
    (rising : ∀ k < levels.length, edge k ≤ edge (k + 1))
    {late : List (Nat × α)}
    (later : ∀ write ∈ late, edge levels.length ≤ write.1)
    {k : Nat}
    (within : k < levels.length)
    {t : Nat}
    (after : edge k ≤ t)
    (before : t < edge (k + 1)) :
    levelAt idle (early ++ timed edge levels ++ late) t = levels[k] := by
  induction levels generalizing edge early k with
  | nil =>
      contradiction
  | cons level rest inductionHypothesis =>
      have risingRest :
          ∀ k < rest.length, edge (k + 1) ≤ edge (k + 1 + 1) :=
        fun k within => rising (k + 1) (Nat.succ_lt_succ within)
      cases k with
      | zero =>
          rw [timed, List.append_assoc, List.cons_append]
          refine levelAt_of_last idle level early after ?_
          intro write member
          rcases List.mem_append.mp member with inRest | inLate
          · exact Nat.lt_of_lt_of_le before
              (le_of_mem_timed risingRest inRest)
          · have monotone : edge 1 ≤ edge (rest.length + 1) :=
              edge_zero_le risingRest
            exact Nat.lt_of_lt_of_le before
              (monotone.trans (later write inLate))
      | succ k =>
          have moved :
              early ++ timed edge (level :: rest) ++ late =
                (early ++ [(edge 0, level)]) ++
                  timed (fun k => edge (k + 1)) rest ++ late := by
            simp [timed]
          rw [moved]
          exact inductionHypothesis _ risingRest later
            (Nat.lt_of_succ_lt_succ within) after before

/-! ## Pace -/

/-- Each of the first `count` levels lasts at least `lo` and at most `hi`. -/
structure Paced (edge : Nat → Nat) (count lo hi : Nat) : Prop where
  least : ∀ k < count, edge k + lo ≤ edge (k + 1)
  most : ∀ k < count, edge (k + 1) ≤ edge k + hi

theorem Paced.rising
    {edge : Nat → Nat}
    {count lo hi : Nat}
    (paced : Paced edge count lo hi) :
    ∀ k < count, edge k ≤ edge (k + 1) :=
  fun k within => (Nat.le_add_right _ lo).trans (paced.least k within)

theorem Paced.bounds
    {edge : Nat → Nat}
    {count lo hi : Nat}
    (paced : Paced edge count lo hi)
    {k : Nat}
    (within : k ≤ count) :
    edge 0 + k * lo ≤ edge k ∧ edge k ≤ edge 0 + k * hi := by
  induction k with
  | zero =>
      simp
  | succ k inductionHypothesis =>
      obtain ⟨lower, upper⟩ := inductionHypothesis (Nat.le_of_lt within)
      have least := paced.least k within
      have most := paced.most k within
      rw [Nat.succ_mul, Nat.succ_mul]
      omega

/-- Two regular series of times keep their order if their ends do. -/
theorem le_of_ends
    {n a b s r : Nat}
    (first : a ≤ b)
    (last : a + n * s ≤ b + n * r)
    {k : Nat}
    (within : k ≤ n) :
    a + k * s ≤ b + k * r := by
  rcases Nat.le_total s r with slower | faster
  · exact Nat.add_le_add first (Nat.mul_le_mul_left k slower)
  · obtain ⟨d, rfl⟩ := Nat.exists_eq_add_of_le faster
    have few : k * d ≤ n * d := Nat.mul_le_mul_right d within
    rw [Nat.mul_add] at last ⊢
    omega

/--
Samples at regular times fall into consecutive levels, the first of them into
the one that starts at `edge 1`, if the first and the last do.
-/
theorem Paced.inside
    {edge : Nat → Nat}
    {count lo hi first step : Nat}
    (paced : Paced edge (count + 2) lo hi)
    (firstAfter : hi ≤ first)
    (firstBefore : first < 2 * lo)
    (lastAfter : hi + count * hi ≤ first + count * step)
    (lastBefore : first + count * step < 2 * lo + count * lo)
    {k : Nat}
    (within : k ≤ count) :
    edge (k + 1) ≤ edge 0 + (first + k * step) ∧
      edge 0 + (first + k * step) < edge (k + 2) := by
  have upper := (paced.bounds (show k + 1 ≤ count + 2 by omega)).2
  have lower := (paced.bounds (show k + 2 ≤ count + 2 by omega)).1
  have after := le_of_ends firstAfter lastAfter within
  have before : first + 1 + k * step ≤ 2 * lo + k * lo :=
    le_of_ends firstBefore (by omega) within
  rw [Nat.add_mul] at upper lower
  omega

/-! ## Frames -/

variable {count : Nat}

/--
`edge 0` is where the start level begins, `edge (k + 1)` where the `k`-th level
of the data does, and `edge (count + 1)` where the line is idle again.
-/
structure Frame (α : Type) (count : Nat) where
  edge : Nat → Nat
  data : Vector α count

/-- The line is idle at a time, and then carries these frames and no other. -/
inductive Carries (idle start : α) (line : Nat → α) :
    Nat → List (Frame α count) → Prop where
  | nil
      {t : Nat}
      (quiet : ∀ u, t ≤ u → line u = idle) :
      Carries idle start line t []
  | cons
      {t : Nat}
      {frame : Frame α count}
      {rest : List (Frame α count)}
      (before : t < frame.edge 0)
      (quiet : ∀ u, t ≤ u → u < frame.edge 0 → line u = idle)
      (started :
        ∀ u, frame.edge 0 ≤ u → u < frame.edge 1 → line u = start)
      (shown :
        ∀ (k : Fin count) (u : Nat),
          frame.edge (k + 1) ≤ u → u < frame.edge (k + 2) →
            line u = frame.data.get k)
      (carriesRest :
        Carries idle start line (frame.edge (count + 1)) rest) :
      Carries idle start line t (frame :: rest)

/-- It carries the same from later on, up to the first frame. -/
theorem Carries.later
    {idle start : α}
    {line : Nat → α}
    {s t : Nat}
    {frames : List (Frame α count)}
    (carries : Carries idle start line s frames)
    (later : s ≤ t)
    (before : ∀ frame ∈ frames.head?, t < frame.edge 0) :
    Carries idle start line t frames := by
  cases carries with
  | nil quiet =>
      exact .nil (fun u within => quiet u (later.trans within))
  | cons _ quiet started shown carriesRest =>
      exact .cons (before _ rfl)
        (fun u within => quiet u (later.trans within))
        started shown carriesRest

/-- The writes that put a frame on the line. -/
def Frame.writes
    (idle start : α)
    (frame : Frame α count) : List (Nat × α) :=
  timed frame.edge (start :: frame.data.toList ++ [idle])

/-- The pause between the end of a frame and the next one. -/
def Spaced (pause : Nat) (frames : List (Frame α count)) : Prop :=
  frames.IsChain
    (fun frame other => frame.edge (count + 1) + pause ≤ other.edge 0)

theorem Frame.writes_eq
    (idle start : α)
    (frame : Frame α count) :
    frame.writes idle start =
      timed frame.edge (start :: frame.data.toList) ++
        [(frame.edge (count + 1), idle)] := by
  rw [Frame.writes, timed_concat]
  simp

/-- Later frames are written after the end of this one. -/
theorem le_of_mem_writes
    {idle start : α}
    {pause lo hi t : Nat}
    {frames : List (Frame α count)}
    (spaced : Spaced pause frames)
    (paced : ∀ frame ∈ frames, Paced frame.edge (count + 1) lo hi)
    (before : ∀ frame ∈ frames.head?, t ≤ frame.edge 0)
    {write : Nat × α}
    (member : write ∈ frames.flatMap (Frame.writes idle start)) :
    t ≤ write.1 := by
  induction frames generalizing t with
  | nil =>
      contradiction
  | cons frame rest inductionHypothesis =>
      obtain ⟨apart, spacedRest⟩ := List.isChain_cons.mp spaced
      have rising := (paced frame List.mem_cons_self).rising
      have starts : t ≤ frame.edge 0 := before frame rfl
      rw [List.flatMap_cons, Frame.writes_eq] at member
      rcases List.mem_append.mp member with inFrame | inRest
      · rcases List.mem_append.mp inFrame with inLevels | inIdle
        · refine starts.trans (le_of_mem_timed ?_ inLevels)
          simpa using rising
        · rw [List.mem_singleton.mp inIdle]
          exact starts.trans (edge_zero_le rising)
      · refine inductionHypothesis spacedRest
          (fun other inOthers => paced other (List.mem_cons_of_mem _ inOthers))
          ?_ inRest
        intro other isHead
        have ends : frame.edge 0 ≤ frame.edge (count + 1) :=
          edge_zero_le rising
        have next := apart other isHead
        omega

/-- Written at a regular pace, frames are what the line carries. -/
theorem carries_writes
    {idle start : α}
    {pause lo hi t : Nat}
    {frames : List (Frame α count)}
    (spaced : Spaced pause frames)
    (some : 0 < pause)
    (paced : ∀ frame ∈ frames, Paced frame.edge (count + 1) lo hi)
    (before : ∀ frame ∈ frames.head?, t < frame.edge 0)
    {early : List (Nat × α)}
    (quiet : ∀ u, t ≤ u → levelAt idle early u = idle) :
    Carries idle start
      (levelAt idle (early ++ frames.flatMap (Frame.writes idle start)))
      t frames := by
  induction frames generalizing t early with
  | nil =>
      refine .nil (fun u after => ?_)
      rw [List.flatMap_nil, List.append_nil]
      exact quiet u after
  | cons frame rest inductionHypothesis =>
      obtain ⟨apart, spacedRest⟩ := List.isChain_cons.mp spaced
      have pacedRest :
          ∀ other ∈ rest, Paced other.edge (count + 1) lo hi :=
        fun other member => paced other (List.mem_cons_of_mem _ member)
      have rising := (paced frame List.mem_cons_self).rising
      have next :
          ∀ other ∈ rest.head?, frame.edge (count + 1) < other.edge 0 := by
        intro other isHead
        have pauses := apart other isHead
        omega
      have later :
          ∀ write ∈ (frame.edge (count + 1), idle) ::
              rest.flatMap (Frame.writes idle start),
            frame.edge (count + 1) ≤ write.1 := by
        intro write member
        rcases List.mem_cons.mp member with rfl | inRest
        · exact Nat.le_refl _
        · exact le_of_mem_writes spacedRest pacedRest
            (fun other isHead => (next other isHead).le) inRest
      have levels :
          early ++ (frame :: rest).flatMap (Frame.writes idle start) =
            early ++ timed frame.edge (start :: frame.data.toList) ++
              (frame.edge (count + 1), idle) ::
                rest.flatMap (Frame.writes idle start) := by
        simp [Frame.writes_eq]
      have risingLevels :
          ∀ k < (start :: frame.data.toList).length,
            frame.edge k ≤ frame.edge (k + 1) := by
        simpa using rising
      refine .cons (before frame rfl) ?quiet ?started ?shown ?rest
      case quiet =>
        intro u after within
        rw [levels, List.append_assoc, levelAt, List.foldl_append]
        change levelAt (levelAt idle early u) _ u = idle
        rw [quiet u after]
        refine levelAt_of_later idle ?_
        intro write member
        rcases List.mem_append.mp member with inLevels | inLate
        · exact within.trans_le (le_of_mem_timed risingLevels inLevels)
        · exact within.trans_le
            ((edge_zero_le rising).trans (later write inLate))
      case started =>
        intro u after within
        rw [levels]
        exact levelAt_timed idle early risingLevels
          (by simpa using later) (Nat.succ_pos _) after within
      case shown =>
        intro k u after within
        have inData : k.val + 1 < (start :: frame.data.toList).length := by
          simp
        rw [levels, levelAt_timed idle early risingLevels
          (by simpa using later) inData after within]
        simp [Vector.get]
      case rest =>
        have written :
            early ++ (frame :: rest).flatMap (Frame.writes idle start) =
              (early ++ frame.writes idle start) ++
                rest.flatMap (Frame.writes idle start) := by
          simp
        rw [written]
        refine inductionHypothesis spacedRest pacedRest next ?_
        intro u after
        rw [Frame.writes_eq, ← List.append_assoc]
        exact levelAt_of_last idle idle _ after
          (fun write member => absurd member List.not_mem_nil)

/-! ## Hearing frames -/

/--
When a receiver looks at the line, counted from the change that called it:
whether there is a start level, the first of the regular samples and the time
between them, and from when on it waits again.
-/
structure Sampling where
  check : Nat
  first : Nat
  step : Nat
  armed : Nat

/-- The levels that a receiver finds behind an edge. -/
def Sampling.samples
    (sampling : Sampling)
    (count : Nat)
    (line : Nat → α)
    (edge : Nat) : Vector α count :=
  Vector.ofFn
    (fun k => line (edge + (sampling.first + k.val * sampling.step)))

/-- The looks of a receiver fall where they should. -/
structure Fits
    (sampling : Sampling)
    (pause : Nat)
    (frame : Frame α count) : Prop where
  check : frame.edge 0 + sampling.check < frame.edge 1
  samples :
    ∀ k : Fin count,
      frame.edge (k + 1) ≤
          frame.edge 0 + (sampling.first + k.val * sampling.step) ∧
        frame.edge 0 + (sampling.first + k.val * sampling.step) <
          frame.edge (k + 2)
  armedAfter : frame.edge (count + 1) ≤ frame.edge 0 + sampling.armed
  armedBefore : frame.edge 0 + sampling.armed < frame.edge (count + 1) + pause

/--
The looks fall where they should for every sender whose levels last `lo` to `hi`
cycles: the first and the last of the samples decide.
-/
structure Sampling.Tolerates
    (sampling : Sampling)
    (count pause lo hi : Nat) : Prop where
  check : sampling.check < lo
  firstAfter : hi ≤ sampling.first
  firstBefore : sampling.first < 2 * lo
  lastAfter : hi + count * hi ≤ sampling.first + count * sampling.step
  lastBefore :
    sampling.first + count * sampling.step < 2 * lo + count * lo
  armedAfter : (count + 2) * hi ≤ sampling.armed
  armedBefore : sampling.armed < (count + 2) * lo + pause

/-- A frame at a pace that the receiver tolerates. -/
theorem Sampling.Tolerates.fits
    {sampling : Sampling}
    {pause lo hi : Nat}
    (tolerates : sampling.Tolerates count pause lo hi)
    {frame : Frame α (count + 1)}
    (paced : Paced frame.edge (count + 2) lo hi) :
    Fits sampling pause frame := by
  obtain ⟨check, firstAfter, firstBefore, lastAfter, lastBefore, armedAfter,
    armedBefore⟩ := tolerates
  have started : frame.edge 0 + lo ≤ frame.edge 1 :=
    paced.least 0 (Nat.succ_pos _)
  obtain ⟨lower, upper⟩ := paced.bounds (Nat.le_refl (count + 2))
  exact {
    check := by omega
    samples := fun k =>
      paced.inside firstAfter firstBefore lastAfter lastBefore
        (Nat.le_of_lt_succ k.isLt)
    armedAfter := by
      change frame.edge (count + 2) ≤ _
      omega
    armedBefore := by
      change _ < frame.edge (count + 2) + pause
      omega }

variable [DecidableEq α]

/--
What a receiver that waits at time `t` samples while it watches for some cycles.
Where it finds no start level, the next change calls it again.
-/
def heard
    (count : Nat)
    (starts : α → Bool)
    (sampling : Nat → Sampling)
    (line : Nat → α) : Nat → Nat → List (Vector α count)
  | 0, _ => []
  | watched + 1, t =>
      if line (t + 1) = line t then
        heard count starts sampling line watched (t + 1)
      else if starts (line (t + 1 + (sampling (t + 1)).check)) then
        (sampling (t + 1)).samples count line (t + 1) ::
          heard count starts sampling line watched
            (t + 1 + (sampling (t + 1)).armed)
      else
        heard count starts sampling line watched (t + 1)

/-- While the line stays as it is there is nothing to hear. -/
theorem heard_quiet
    {starts : α → Bool}
    {sampling : Nat → Sampling}
    {line : Nat → α}
    {idle : α}
    {t k : Nat}
    (quiet : ∀ u, t ≤ u → u ≤ t + k → line u = idle)
    (watched : Nat) :
    heard count starts sampling line (k + watched) t =
      heard count starts sampling line watched (t + k) := by
  induction k generalizing t with
  | zero =>
      rw [Nat.zero_add, Nat.add_zero]
  | succ k inductionHypothesis =>
      have same : line (t + 1) = line t :=
        (quiet (t + 1) (Nat.le_succ t) (by omega)).trans
          (quiet t (Nat.le_refl t) (by omega)).symm
      have rest :
          heard count starts sampling line (k + watched) (t + 1) =
            heard count starts sampling line watched (t + 1 + k) :=
        inductionHypothesis
          (fun u after within => quiet u (by omega) (by omega))
      rw [Nat.add_right_comm, heard, if_pos same, rest,
        Nat.add_assoc, Nat.add_comm 1 k]

/-- A frame in front is heard. -/
theorem heard_frame
    {starts : α → Bool}
    {sampling : Nat → Sampling}
    {line : Nat → α}
    {idle start : α}
    {pause t : Nat}
    {frame : Frame α count}
    {rest : List (Frame α count)}
    (carries : Carries idle start line t (frame :: rest))
    (differs : start ≠ idle)
    (isStart : starts start = true)
    (fits : Fits (sampling (frame.edge 0)) pause frame)
    (watched : Nat) :
    heard count starts sampling line (frame.edge 0 - t + watched) t =
      frame.data ::
        heard count starts sampling line watched
          (frame.edge 0 + (sampling (frame.edge 0)).armed) := by
  cases carries with
  | cons before quiet started shown carriesRest =>
      obtain ⟨wait, edge⟩ : ∃ wait, frame.edge 0 = t + wait + 1 :=
        ⟨frame.edge 0 - t - 1, by omega⟩
      have cycles : frame.edge 0 - t + watched = wait + (watched + 1) := by
        omega
      have check := fits.check
      have isStarted :
          ∀ u, frame.edge 0 ≤ u →
            u ≤ frame.edge 0 + (sampling (frame.edge 0)).check →
              line u = start :=
        fun u after within => started u after (within.trans_lt check)
      have edgeLevel : line (t + wait + 1) = start := by
        rw [← edge]
        exact isStarted _ (Nat.le_refl _) (Nat.le_add_right _ _)
      have beforeLevel : line (t + wait) = idle :=
        quiet _ (Nat.le_add_right _ _) (by omega)
      have checked :
          starts
              (line
                (t + wait + 1 + (sampling (t + wait + 1)).check)) = true := by
        rw [← edge, isStarted _ (Nat.le_add_right _ _) (Nat.le_refl _)]
        exact isStart
      have changed : line (t + wait + 1) ≠ line (t + wait) := by
        rw [edgeLevel, beforeLevel]
        exact differs
      have data :
          (sampling (frame.edge 0)).samples count line (frame.edge 0) =
            frame.data := by
        refine Vector.ext (fun k within => ?_)
        obtain ⟨after, within'⟩ := fits.samples ⟨k, within⟩
        rw [Sampling.samples, Vector.getElem_ofFn]
        exact shown ⟨k, within⟩ _ after within'
      rw [cycles,
        heard_quiet
          (fun u after within => quiet u after (by omega)) (watched + 1),
        heard, if_neg changed, if_pos checked, ← edge, data]

/--
A receiver hears the frames of the line in order, and all of them if it watches
for long enough.
-/
theorem heard_carried
    {starts : α → Bool}
    {sampling : Nat → Sampling}
    {line : Nat → α}
    {idle start : α}
    {pause t : Nat}
    {frames : List (Frame α count)}
    (carries : Carries idle start line t frames)
    (spaced : Spaced pause frames)
    (differs : start ≠ idle)
    (isStart : starts start = true)
    (fits :
      ∀ frame ∈ frames, Fits (sampling (frame.edge 0)) pause frame)
    (watched : Nat) :
    heard count starts sampling line watched t <+: frames.map Frame.data ∧
      ((∀ frame ∈ frames, frame.edge 0 ≤ t + watched) →
        heard count starts sampling line watched t =
          frames.map Frame.data) := by
  induction frames generalizing t watched with
  | nil =>
      cases carries with
      | nil quiet =>
          have nothing :
              heard count starts sampling line watched t = [] :=
            heard_quiet (fun u after _ => quiet u after) 0
          simp [nothing]
  | cons frame rest inductionHypothesis =>
      obtain ⟨apart, spacedRest⟩ := List.isChain_cons.mp spaced
      have fitsFrame := fits frame List.mem_cons_self
      by_cases early : t + watched < frame.edge 0
      · have quiet :
            ∀ u, t ≤ u → u ≤ t + watched → line u = idle := by
          cases carries with
          | cons before quiet started shown carriesRest =>
              exact fun u after within =>
                quiet u after (within.trans_lt early)
        have nothing :
            heard count starts sampling line watched t = [] :=
          heard_quiet quiet 0
        refine ⟨?_, fun enough => ?_⟩
        · rw [nothing]
          exact List.nil_prefix
        · exact absurd (enough frame List.mem_cons_self)
            (Nat.not_le_of_lt early)
      · obtain ⟨more, rfl⟩ :
            ∃ more, watched = frame.edge 0 - t + more :=
          ⟨watched - (frame.edge 0 - t), by omega⟩
        have first :=
          heard_frame carries differs isStart fitsFrame more
        obtain ⟨before, carriesRest⟩ :
            t < frame.edge 0 ∧
              Carries idle start line
                (frame.edge 0 + (sampling (frame.edge 0)).armed) rest := by
          cases carries with
          | cons before quiet started shown carriesRest =>
              refine ⟨before,
                carriesRest.later fitsFrame.armedAfter ?_⟩
              intro other isHead
              exact fitsFrame.armedBefore.trans_le (apart other isHead)
        obtain ⟨heardPrefix, heardAll⟩ :=
          inductionHypothesis carriesRest spacedRest
            (fun other member => fits other (List.mem_cons_of_mem _ member))
            more
        rw [first, List.map_cons]
        refine ⟨(List.prefix_cons_inj _).mpr heardPrefix, fun enough => ?_⟩
        rw [heardAll]
        intro other member
        have late := enough other (List.mem_cons_of_mem _ member)
        omega

end SerialFrame
