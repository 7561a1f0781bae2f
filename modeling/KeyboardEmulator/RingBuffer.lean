import Mathlib.Data.List.Basic
import Mathlib.Data.Nat.ModEq

/-!
# Circular buffers and the bounded queue they implement

A buffer of `n` cells with a read index and a write index holds at most
`n - 1` elements: equal indices mean empty, so one cell always stays free.
`contents` reads the stored elements off in arrival order.  Storing a cell and
moving an index are separate operations, because a concurrent reader can see
the state between them.
-/

namespace RingBuffer

universe u

/-- A circular buffer of `n` cells, read at `rd` and written at `wr`. -/
structure Ring (α : Type u) (n : Nat) where
  cells : Vector α n
  rd : Fin n
  wr : Fin n
  deriving Repr, DecidableEq

variable {α : Type u} {n : Nat}

/-- The index after `i`, wrapping at the end of the buffer. -/
def next (i : Fin n) : Fin n :=
  ⟨(i.val + 1) % n, Nat.mod_lt _ i.pos⟩

/-- The index `k` places after `i`. -/
def offset (i : Fin n) (k : Nat) : Fin n :=
  ⟨(i.val + k) % n, Nat.mod_lt _ i.pos⟩

/-- How many places `wr` is ahead of `rd`. -/
def distance (rd wr : Fin n) : Nat :=
  (wr.val + n - rd.val) % n

@[simp] theorem offset_zero (i : Fin n) : offset i 0 = i := by
  apply Fin.ext
  simp [offset, Nat.mod_eq_of_lt i.isLt]

/-- Starting one place later is the same as going one place further. -/
theorem offset_next
    (i : Fin n)
    (k : Nat) :
    offset (next i) k = offset i (k + 1) := by
  apply Fin.ext
  simp only [offset, next, Nat.mod_add_mod]
  congr 1
  omega

theorem offset_succ
    (i : Fin n)
    (k : Nat) :
    offset i (k + 1) = next (offset i k) := by
  apply Fin.ext
  simp only [offset, next, Nat.mod_add_mod]
  congr 1

/-- Two indices are at most `n - 1` apart. -/
theorem distance_lt (rd wr : Fin n) : distance rd wr < n :=
  Nat.mod_lt _ rd.pos

/-- Walking the distance from one index reaches the other. -/
theorem offset_distance (rd wr : Fin n) :
    offset rd (distance rd wr) = wr := by
  apply Fin.ext
  have rdLt := rd.isLt
  have wrLt := wr.isLt
  simp only [offset, distance, Nat.add_mod_mod]
  rw [show rd.val + (wr.val + n - rd.val) = wr.val + n by omega]
  simp [Nat.mod_eq_of_lt wrLt]

/-- The distance to an index reached by fewer than `n` places. -/
theorem distance_offset
    (rd : Fin n)
    {k : Nat}
    (within : k < n) :
    distance rd (offset rd k) = k := by
  have rdLt := rd.isLt
  simp only [distance, offset]
  by_cases wraps : rd.val + k < n
  · rw [Nat.mod_eq_of_lt wraps,
      show rd.val + k + n - rd.val = k + n by omega]
    simp [Nat.mod_eq_of_lt within]
  · have wrapped : (rd.val + k) % n = rd.val + k - n := by
      rw [Nat.mod_eq_sub_mod (by omega)]
      exact Nat.mod_eq_of_lt (by omega)
    rw [wrapped,
      show rd.val + k - n + n - rd.val = k by omega]
    exact Nat.mod_eq_of_lt within

@[simp] theorem distance_self (i : Fin n) : distance i i = 0 := by
  simpa using distance_offset i i.pos

/-- The indices agree exactly when nothing lies between them. -/
theorem distance_eq_zero_iff {rd wr : Fin n} :
    distance rd wr = 0 ↔ rd = wr := by
  constructor
  · intro empty
    have reached := offset_distance rd wr
    rwa [empty, offset_zero] at reached
  · rintro rfl
    exact distance_self rd

/-- Moving the write index forward adds one place unless it meets `rd`. -/
theorem distance_next_wr
    {rd wr : Fin n}
    (room : next wr ≠ rd) :
    distance rd (next wr) = distance rd wr + 1 := by
  have reached : next wr = offset rd (distance rd wr + 1) := by
    rw [offset_succ, offset_distance]
  by_cases within : distance rd wr + 1 < n
  · rw [reached, distance_offset rd within]
  · have exact : distance rd wr + 1 = n := by
      have bound := distance_lt rd wr
      omega
    refine (room ?_).elim
    apply Fin.ext
    rw [reached, exact]
    simp [offset, Nat.mod_eq_of_lt rd.isLt]

/-- Moving the read index forward removes one place of a nonempty span. -/
theorem distance_next_rd
    {rd wr : Fin n}
    (nonempty : rd ≠ wr) :
    distance rd wr = distance (next rd) wr + 1 := by
  have positive : 0 < distance rd wr :=
    Nat.pos_of_ne_zero (fun zero => nonempty (distance_eq_zero_iff.mp zero))
  have bound := distance_lt rd wr
  have reached :
      wr = offset (next rd) (distance rd wr - 1) := by
    rw [offset_next, Nat.sub_add_cancel positive, offset_distance]
  have shorter :
      distance (next rd) wr = distance rd wr - 1 := by
    conv_lhs => rw [reached]
    exact distance_offset (next rd) (by omega)
  omega

/-- The write index is about to meet `rd` exactly when `n - 1` places are used. -/
theorem next_wr_eq_rd_iff {rd wr : Fin n} :
    next wr = rd ↔ distance rd wr + 1 = n := by
  constructor
  · intro full
    by_contra notFull
    have bound := distance_lt rd wr
    have within : distance rd wr + 1 < n := by omega
    have reached : offset rd (distance rd wr + 1) = rd := by
      rw [offset_succ, offset_distance, full]
    have zero := distance_offset rd within
    rw [reached, distance_self] at zero
    omega
  · intro full
    have reached :
        next wr = offset rd (distance rd wr + 1) := by
      rw [offset_succ, offset_distance]
    rw [reached]
    apply Fin.ext
    simp [offset, full, Nat.mod_eq_of_lt rd.isLt]

namespace Ring

/-- Number of stored elements. -/
def occupancy (ring : Ring α n) : Nat :=
  distance ring.rd ring.wr

/-- The stored elements, oldest first. -/
def contents (ring : Ring α n) : List α :=
  (List.range ring.occupancy).map
    (fun k => ring.cells[offset ring.rd k])

/-- Write a value into the free cell without publishing it. -/
def fill (ring : Ring α n) (value : α) : Ring α n :=
  { ring with cells := ring.cells.set ring.wr value }

/-- Publish the cell at the write index. -/
def commit (ring : Ring α n) : Ring α n :=
  { ring with wr := next ring.wr }

/-- Release the cell at the read index. -/
def release (ring : Ring α n) : Ring α n :=
  { ring with rd := next ring.rd }

/-- The element the next `release` removes. -/
def front (ring : Ring α n) : α :=
  ring.cells[ring.rd]

/-- No further element fits: publishing one would make the indices meet. -/
def Full (ring : Ring α n) : Prop :=
  next ring.wr = ring.rd

/-- Nothing is stored. -/
def Empty (ring : Ring α n) : Prop :=
  ring.rd = ring.wr

instance (ring : Ring α n) : Decidable ring.Full :=
  inferInstanceAs (Decidable (next ring.wr = ring.rd))

instance (ring : Ring α n) : Decidable ring.Empty :=
  inferInstanceAs (Decidable (ring.rd = ring.wr))

@[simp] theorem length_contents (ring : Ring α n) :
    ring.contents.length = ring.occupancy := by
  simp [contents]

theorem occupancy_lt (ring : Ring α n) : ring.occupancy < n :=
  distance_lt ring.rd ring.wr

theorem occupancy_eq_zero_iff {ring : Ring α n} :
    ring.occupancy = 0 ↔ ring.Empty :=
  distance_eq_zero_iff

/-- A full ring stores one element less than it has cells. -/
theorem full_iff_occupancy {ring : Ring α n} :
    ring.Full ↔ ring.occupancy + 1 = n :=
  next_wr_eq_rd_iff

theorem contents_eq_nil_iff {ring : Ring α n} :
    ring.contents = [] ↔ ring.Empty := by
  rw [← List.length_eq_zero_iff, length_contents,
    occupancy_eq_zero_iff]

/-- An unpublished cell is not part of the contents. -/
@[simp] theorem contents_fill
    (ring : Ring α n)
    (value : α) :
    (ring.fill value).contents = ring.contents := by
  have sameOccupancy :
      (ring.fill value).occupancy = ring.occupancy := rfl
  simp only [contents, sameOccupancy]
  apply List.map_congr_left
  intro k member
  have within : k < ring.occupancy := List.mem_range.mp member
  have apart : offset ring.rd k ≠ ring.wr := by
    intro meets
    have distanceIs := distance_offset ring.rd
      (Nat.lt_trans within ring.occupancy_lt)
    rw [meets] at distanceIs
    rw [occupancy, distanceIs] at within
    exact Nat.lt_irrefl k within
  have apartVal :
      (ring.wr : Nat) ≠ (offset ring.rd k : Nat) :=
    fun same => apart (Fin.ext same.symm)
  simp [fill, Vector.getElem_set_ne, apartVal]

/-- Publishing appends the filled cell, provided there is room. -/
theorem contents_commit
    {ring : Ring α n}
    (room : ¬ ring.Full) :
    ring.commit.contents =
      ring.contents ++ [ring.cells[ring.wr]] := by
  have longer :
      ring.commit.occupancy = ring.occupancy + 1 :=
    distance_next_wr room
  have lastIndex :
      offset ring.rd ring.occupancy = ring.wr :=
    offset_distance ring.rd ring.wr
  rw [contents, longer, List.range_succ, List.map_append,
    List.map_singleton]
  simp only [commit, lastIndex, contents]

/-- Releasing removes the oldest element. -/
theorem contents_release
    {ring : Ring α n}
    (nonempty : ¬ ring.Empty) :
    ring.contents = ring.front :: ring.release.contents := by
  have shorter :
      ring.occupancy = ring.release.occupancy + 1 :=
    distance_next_rd nonempty
  simp only [contents, shorter, List.range_succ_eq_map,
    List.map_cons, List.map_map, offset_zero, front]
  congr 1
  apply List.map_congr_left
  intro k _
  simp [release, offset_next]

/-- Filling and publishing appends the value. -/
theorem contents_fill_commit
    {ring : Ring α n}
    (room : ¬ ring.Full)
    (value : α) :
    (ring.fill value).commit.contents =
      ring.contents ++ [value] := by
  have stillRoom : ¬ (ring.fill value).Full := room
  rw [contents_commit stillRoom, contents_fill]
  simp [fill]

/-- Storing behind the oldest element does not disturb it. -/
theorem front_fill_commit
    {ring : Ring α n}
    (nonempty : ¬ ring.Empty)
    (value : α) :
    (ring.fill value).commit.front = ring.front := by
  have apart : ring.wr.val ≠ ring.rd.val :=
    fun same => nonempty (Fin.ext same.symm)
  simp only [front, commit, fill]
  exact Vector.getElem_set_ne _ _ apart

theorem occupancy_commit
    {ring : Ring α n}
    (room : ¬ ring.Full) :
    ring.commit.occupancy = ring.occupancy + 1 :=
  distance_next_wr room

theorem occupancy_release
    {ring : Ring α n}
    (nonempty : ¬ ring.Empty) :
    ring.occupancy = ring.release.occupancy + 1 :=
  distance_next_rd nonempty

/-- A ring with more than one cell is never empty and full at once. -/
theorem not_full_of_empty
    {ring : Ring α n}
    (large : 1 < n)
    (empty : ring.Empty) :
    ¬ ring.Full := by
  rw [full_iff_occupancy, occupancy_eq_zero_iff.mpr empty]
  omega

theorem not_empty_commit
    {ring : Ring α n}
    (room : ¬ ring.Full) :
    ¬ ring.commit.Empty :=
  fun empty => room empty.symm

/-- Releasing an element of a nonempty ring makes room. -/
theorem not_full_release
    {ring : Ring α n}
    (nonempty : ¬ ring.Empty) :
    ¬ ring.release.Full := by
  have shorter := occupancy_release nonempty
  have bound := ring.occupancy_lt
  rw [full_iff_occupancy]
  omega

end Ring

end RingBuffer
