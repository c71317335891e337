import Mathlib.Data.List.Basic

/-!
# Copies within bounds

A block of memory is the list of its cells.  Reading and writing some cells of a block has no
result when they are not all within it; a number of cells that is negative is never within.
-/

namespace FrameCode.CheckedCopy

variable {α : Type}

/-- The `count` cells of a block from `offset` on. -/
def read (block : List α) (offset : Nat) (count : Int) : Option (List α) :=
  if 0 ≤ count ∧ offset + count ≤ block.length then some ((block.drop offset).take count.toNat)
  else none

/-- The block with other cells from `offset` on. -/
def write (block : List α) (offset : Nat) (cells : List α) : Option (List α) :=
  if offset + cells.length ≤ block.length then
    some (block.take offset ++ cells ++ block.drop (offset + cells.length))
  else none

section Copies

variable {block cells after : List α} {offset : Nat} {count : Int}

theorem read_eq_some_iff :
    read block offset count = some cells ↔
      0 ≤ count ∧ offset + count ≤ block.length ∧ (block.drop offset).take count.toNat = cells := by
  unfold read
  split
  · rename_i within
    simp [within]
  · rename_i outside
    simp only [reduceCtorEq, false_iff]
    rintro ⟨nonnegative, bound, -⟩
    exact outside ⟨nonnegative, bound⟩

theorem read_eq (nonnegative : 0 ≤ count) (within : offset + count ≤ block.length) :
    read block offset count = some ((block.drop offset).take count.toNat) :=
  if_pos ⟨nonnegative, within⟩

/-- Reading up to the end of a block. -/
theorem read_rest (within : offset ≤ block.length) (all : offset + count = block.length) :
    read block offset count = some (block.drop offset) := by
  rw [read_eq (by omega) (by omega)]
  congr 1
  apply List.take_of_length_le
  rw [List.length_drop]
  omega

theorem length_of_read (found : read block offset count = some cells) :
    (cells.length : Int) = count := by
  obtain ⟨nonnegative, within, rfl⟩ := read_eq_some_iff.mp found
  rw [List.length_take, List.length_drop]
  omega

theorem exists_read (nonnegative : 0 ≤ count) (within : offset + count ≤ block.length) :
    ∃ cells, read block offset count = some cells ∧ (cells.length : Int) = count :=
  ⟨_, read_eq nonnegative within, length_of_read (read_eq nonnegative within)⟩

/-- What is read from the beginning of a block does not depend on the rest. -/
theorem read_left (first rest : List α) : read (first ++ rest) 0 first.length = some first := by
  have within : ((0 : Nat) : Int) + first.length ≤ (first ++ rest).length := by
    rw [List.length_append]
    omega
  rw [read_eq (by omega) within]
  simp

theorem length_write (written : write block offset cells = some after) :
    after.length = block.length := by
  unfold write at written
  split at written
  · cases written
    simp
    omega
  · cases written

theorem exists_write (within : offset + cells.length ≤ block.length) :
    ∃ after, write block offset cells = some after ∧ after.length = block.length :=
  ⟨_, if_pos within, length_write (if_pos within)⟩

/-- Writing over the middle part of a block. -/
theorem write_middle (before old new rest : List α) (same : new.length = old.length) :
    write (before ++ old ++ rest) before.length new = some (before ++ new ++ rest) := by
  have within : before.length + new.length ≤ (before ++ old ++ rest).length := by
    simp only [List.length_append]
    omega
  have behind : before.length + new.length = (before ++ old).length := by
    rw [List.length_append, same]
  rw [write, if_pos within, behind, List.drop_left, List.append_assoc before old rest,
    List.take_left]

/-- The same at an offset that is known to be the length of the part before. -/
theorem write_at {before old new rest : List α} {offset : Nat} (here : offset = before.length)
    (same : new.length = old.length) :
    write (before ++ old ++ rest) offset new = some (before ++ new ++ rest) :=
  here ▸ write_middle before old new rest same

/-- Writing behind the beginning of a block, over cells of no interest. -/
theorem write_behind (before new : List α) {cell : α} {spare : Nat} (fits : new.length ≤ spare) :
    write (before ++ List.replicate spare cell) before.length new =
      some (before ++ new ++ List.replicate (spare - new.length) cell) := by
  have split : List.replicate spare cell =
      List.replicate new.length cell ++ List.replicate (spare - new.length) cell := by
    rw [List.replicate_append_replicate]
    congr 1
    omega
  rw [split, ← List.append_assoc]
  exact write_middle before _ new _ (by simp)

end Copies

end FrameCode.CheckedCopy
