import Mathlib.Data.List.Induction
import Mathlib.Data.Nat.Bitwise
import Mathlib.Tactic.Ring

/-!
# Numbers as groups of bits

Groups of equal width are shifted together into a number, the first one to the top, and taken out
of a number again.  Each of the two undoes the other, so that a number is carried over from groups
of one width to groups of another one.
-/

namespace FrameCode.BitGroups

variable {width count value group : Nat} {groups : List Nat}

/-- The number whose groups are given. -/
def pack (width : Nat) (groups : List Nat) : Nat :=
  groups.foldl (fun value group => value <<< width ||| group) 0

/-- The last `count` groups of a number. -/
def unpack (width count value : Nat) : List Nat :=
  (List.range count).map fun i => value >>> ((count - 1 - i) * width) &&& (2 ^ width - 1)

@[simp] theorem pack_nil : pack width [] = 0 := rfl

theorem pack_snoc (small : group < 2 ^ width) :
    pack width (groups ++ [group]) = pack width groups * 2 ^ width + group := by
  rw [pack, List.foldl_append, List.foldl_cons, List.foldl_nil,
    ← Nat.shiftLeft_add_eq_or_of_lt small, Nat.shiftLeft_eq]
  rfl

@[simp] theorem length_unpack : (unpack width count value).length = count := by
  rw [unpack, List.length_map, List.length_range]

theorem unpack_succ :
    unpack width (count + 1) value =
      unpack width count (value / 2 ^ width) ++ [value % 2 ^ width] := by
  unfold unpack
  rw [List.range_succ, List.map_append, List.map_singleton]
  congr 1
  · apply List.map_congr_left
    intro i member
    have inside := List.mem_range.mp member
    have shift : (count + 1 - 1 - i) * width = width + (count - 1 - i) * width := by
      have next : count + 1 - 1 - i = count - 1 - i + 1 := by omega
      rw [next, Nat.add_mul, Nat.one_mul, Nat.add_comm]
    rw [shift, Nat.shiftRight_add, Nat.shiftRight_eq_div_pow value]
  · simp [Nat.and_two_pow_sub_one_eq_mod]

theorem mem_unpack_lt : ∀ group ∈ unpack width count value, group < 2 ^ width := by
  intro group member
  obtain ⟨i, -, rfl⟩ := List.mem_map.mp member
  rw [Nat.and_two_pow_sub_one_eq_mod]
  exact Nat.mod_lt _ (Nat.two_pow_pos width)

theorem unpack_pack (small : ∀ group ∈ groups, group < 2 ^ width) :
    unpack width groups.length (pack width groups) = groups := by
  induction groups using List.reverseRecOn with
  | nil => rfl
  | append_singleton front last ih =>
      have lastSmall : last < 2 ^ width := small last (by simp)
      have before : unpack width front.length (pack width front) = front :=
        ih fun group member => small group (List.mem_append_left _ member)
      rw [List.length_append, List.length_singleton, unpack_succ, pack_snoc lastSmall]
      have quotient : (pack width front * 2 ^ width + last) / 2 ^ width = pack width front := by
        rw [Nat.mul_comm, Nat.mul_add_div (Nat.two_pow_pos width), Nat.div_eq_of_lt lastSmall,
          Nat.add_zero]
      rw [quotient, before, Nat.mul_comm, Nat.mul_add_mod, Nat.mod_eq_of_lt lastSmall]

theorem pack_unpack : pack width (unpack width count value) = value % 2 ^ (count * width) := by
  induction count generalizing value with
  | zero => simp [unpack, Nat.mod_one]
  | succ count ih =>
      rw [unpack_succ, pack_snoc (Nat.mod_lt _ (Nat.two_pow_pos width)), ih, Nat.succ_mul,
        Nat.add_comm (count * width), pow_add, Nat.mod_mul, Nat.add_comm, Nat.mul_comm]

theorem pack_lt (small : ∀ group ∈ groups, group < 2 ^ width) :
    pack width groups < 2 ^ (groups.length * width) := by
  rw [← unpack_pack small, pack_unpack, length_unpack]
  exact Nat.mod_lt _ (Nat.two_pow_pos _)

/-- A shift by whole groups is the number with groups of zero bits behind. -/
theorem pack_append_zeros (width : Nat) (groups : List Nat) (more : Nat) :
    pack width (groups ++ List.replicate more 0) = pack width groups <<< (more * width) := by
  induction more with
  | zero => simp
  | succ more ih =>
      rw [List.replicate_succ', ← List.append_assoc, pack_snoc (Nat.two_pow_pos width), ih,
        Nat.add_zero, Nat.shiftLeft_eq, Nat.shiftLeft_eq, Nat.succ_mul, pow_add]
      ring

end FrameCode.BitGroups
