import Mathlib.Combinatorics.Pigeonhole
import Mathlib.Data.Nat.Prime.Basic
import Mathlib.Data.Finset.Card
import Mathlib.Data.Nat.ModEq
import Mathlib.Tactic.Linarith
import Mathlib.Tactic.Ring
import Mathlib.Tactic.Zify

/-!
# Quadratic probing

A probe sequence visits the squares `start, start + 1, start + 4, start + 9, …`
of a table, each taken modulo the table size.  The walk below computes it the
way open-addressing code does, adding the next odd number to the previous
position and correcting an overflow by at most two subtractions.  For a prime
size the first half of the sequence has no repetition, so the walk meets a free
slot as soon as more than half of the slots are free.
-/

namespace FrameCode.QuadraticProbing

/-- The `k`-th position of the probe sequence that begins at `start`. -/
def slotAt (size start k : Nat) : Nat := (start + k * k) % size

/-- One step of the walk.  The two subtractions are those of the code: a
position below `size` moves by less than `2 * size`. -/
def advance (size position collision : Nat) : Nat :=
  let moved := position + (2 * collision - 1)
  let once := if size ≤ moved then moved - size else moved
  if size ≤ once then once - size else once

/-- Walk the probe sequence until `stop` holds.  The fuel bounds the number of
examined positions. -/
def walk (size : Nat) (stop : Nat → Bool) : Nat → Nat → Nat → Option Nat
  | 0, _, _ => none
  | fuel + 1, position, collision =>
      if stop position then some position
      else walk size stop fuel (advance size position (collision + 1)) (collision + 1)

theorem slotAt_lt {size : Nat} (positive : 0 < size) (start k : Nat) :
    slotAt size start k < size :=
  Nat.mod_lt _ positive

@[simp] theorem slotAt_zero {size start : Nat} (inside : start < size) :
    slotAt size start 0 = start := by
  simp [slotAt, Nat.mod_eq_of_lt inside]

/-- The incremental step lands on the next square, as long as the collision
count has not passed the table size. -/
theorem advance_slotAt {size k : Nat} (inside : k < size) (start : Nat) :
    advance size (slotAt size start k) (k + 1) = slotAt size start (k + 1) := by
  have positive : 0 < size := by omega
  have current := slotAt_lt positive start k
  have congruent : (slotAt size start k + (2 * (k + 1) - 1)) % size =
      slotAt size start (k + 1) := by
    have square : start + (k + 1) * (k + 1) = start + k * k + (2 * (k + 1) - 1) := by
      have : 2 * (k + 1) - 1 = 2 * k + 1 := by omega
      rw [this]
      ring
    unfold slotAt
    rw [square, Nat.mod_add_mod]
  rw [← congruent]
  unfold advance
  generalize moved : slotAt size start k + (2 * (k + 1) - 1) = total
  have bound : total < size + 2 * size := by omega
  by_cases first : size ≤ total
  · by_cases second : size ≤ total - size
    · simp only [first, second, if_true]
      rw [Nat.mod_eq_sub_mod first, Nat.mod_eq_sub_mod second,
        Nat.mod_eq_of_lt (by omega)]
    · simp only [first, second, if_true, if_false]
      rw [Nat.mod_eq_sub_mod first, Nat.mod_eq_of_lt (by omega)]
  · simp only [first, if_false]
    rw [Nat.mod_eq_of_lt (by omega)]

/-- The walk returns the first position of the sequence at which `stop` holds. -/
theorem walk_eq_some {size start : Nat} {stop : Nat → Bool} {last : Nat}
    (stops : stop (slotAt size start last)) :
    ∀ (fuel k : Nat), k ≤ last → last < k + fuel → last ≤ size →
      (∀ i, k ≤ i → i < last → stop (slotAt size start i) = false) →
      walk size stop fuel (slotAt size start k) k = some (slotAt size start last) := by
  intro fuel
  induction fuel with
  | zero => intro k lower upper; omega
  | succ fuel ih =>
      intro k lower upper bounded before
      rcases Nat.lt_or_eq_of_le lower with earlier | rfl
      · have passes := before k (Nat.le_refl k) earlier
        simp only [walk, passes, Bool.false_eq_true, if_false]
        rw [advance_slotAt (by omega)]
        exact ih (k + 1) earlier (by omega) bounded
          fun i low high => before i (by omega) high
      · simp [walk, stops]

/-- A walk that ends does so at the first position where it may. -/
theorem of_walk_eq_some {size start : Nat} {stop : Nat → Bool} {position : Nat} :
    ∀ (fuel k : Nat), k + fuel ≤ size →
      walk size stop fuel (slotAt size start k) k = some position →
      ∃ last, position = slotAt size start last ∧ stop position = true ∧
        ∀ i, k ≤ i → i < last → stop (slotAt size start i) = false := by
  intro fuel
  induction fuel with
  | zero => intro k _ walked; cases walked
  | succ fuel ih =>
      intro k bounded walked
      cases here : stop (slotAt size start k) with
      | true =>
          simp only [walk, here, if_true, Option.some.injEq] at walked
          subst walked
          exact ⟨k, rfl, here, fun i low high => absurd low (by omega)⟩
      | false =>
          simp only [walk, here, Bool.false_eq_true, if_false] at walked
          rw [advance_slotAt (by omega)] at walked
          obtain ⟨last, same, stops, before⟩ := ih (k + 1) (by omega) walked
          refine ⟨last, same, stops, fun i low high => ?_⟩
          rcases Nat.eq_or_lt_of_le low with rfl | later
          · exact here
          · exact before i later high

/-- Without a stopping position the walk uses up its fuel. -/
theorem walk_eq_none {size start : Nat} {stop : Nat → Bool} :
    ∀ (fuel k : Nat), k + fuel ≤ size →
      (∀ i, k ≤ i → i < k + fuel → stop (slotAt size start i) = false) →
      walk size stop fuel (slotAt size start k) k = none := by
  intro fuel
  induction fuel with
  | zero => intro k _ _; rfl
  | succ fuel ih =>
      intro k bounded passes
      simp only [walk, passes k (Nat.le_refl k) (by omega), Bool.false_eq_true, if_false]
      rw [advance_slotAt (by omega)]
      exact ih (k + 1) (by omega) fun i low high => passes i (by omega) (by omega)

/-! ## Beyond the size

The step of the walk is that of the sequence only up to `size` steps.  From there on the two
subtractions take back less than the increment, and the position moves on by the squares.
-/

/-- The position after any number of steps. -/
def positionAfter (size start : Nat) : Nat → Nat
  | 0 => start
  | k + 1 => advance size (positionAfter size start k) (k + 1)

section Positions

variable {size start k : Nat} {stop : Nat → Bool}

theorem positionAfter_eq (inside : start < size) (few : k ≤ size) :
    positionAfter size start k = slotAt size start k := by
  induction k with
  | zero => exact (slotAt_zero inside).symm
  | succ k ih => rw [positionAfter, ih (by omega), advance_slotAt (by omega)]

theorem positionAfter_add (inside : start < size) (j : Nat) :
    positionAfter size start (size + j) = start + j * j := by
  induction j with
  | zero =>
      rw [Nat.add_zero, positionAfter_eq inside le_rfl, slotAt, Nat.add_mul_mod_self_left,
        Nat.mod_eq_of_lt inside]
      rfl
  | succ j ih =>
      have moved : start + j * j + (2 * (size + j + 1) - 1) =
          start + (j + 1) * (j + 1) + size + size := by
        have increment : 2 * (size + j + 1) - 1 = 2 * j + 1 + size + size := by omega
        rw [increment]
        ring
      change advance size (positionAfter size start (size + j)) (size + j + 1) = _
      rw [ih, advance, moved]
      simp only [Nat.le_add_left, if_true, Nat.add_sub_cancel]

/-- A walk that gives up has examined every position of the sequence. -/
theorem passes_of_walk_eq_none (inside : start < size)
    (walked : walk size stop size start 0 = none) {i : Nat} (few : i < size) :
    stop (slotAt size start i) = false := by
  by_contra stops
  have eventually : ∃ i, stop (slotAt size start i) = true := ⟨i, by simpa using stops⟩
  have first := Nat.find_spec eventually
  have bound : Nat.find eventually ≤ i := Nat.find_min' eventually (by simpa using stops)
  have found := walk_eq_some first size 0 (Nat.zero_le _) (by omega) (by omega)
    fun j _ less => by simpa using Nat.find_min eventually less
  rw [slotAt_zero inside, walked] at found
  cases found

/-- A walk gives up just when its position, followed without a bound on the steps, leaves the
table and stops nowhere before. -/
theorem walk_eq_none_iff (inside : start < size) :
    walk size stop size start 0 = none ↔
      ∃ k < 2 * size + 1, size ≤ positionAfter size start k ∧
        ∀ i < k, positionAfter size start i < size ∧
          stop (positionAfter size start i) = false := by
  constructor
  · intro walked
    have outside : ∃ j, size ≤ start + j * j := ⟨size, by nlinarith⟩
    have bound : Nat.find outside ≤ size := Nat.find_min' outside (by nlinarith)
    refine ⟨size + Nat.find outside, by omega, ?_, fun i less => ?_⟩
    · rw [positionAfter_add inside]
      exact Nat.find_spec outside
    · by_cases early : i < size
      · rw [positionAfter_eq inside early.le]
        exact ⟨slotAt_lt (by omega) start i, passes_of_walk_eq_none inside walked early⟩
      · obtain ⟨j, rfl⟩ := Nat.exists_eq_add_of_le (Nat.not_lt.mp early)
        have within : start + j * j < size :=
          Nat.not_le.mp (Nat.find_min outside (by omega))
        have again : slotAt size start j = start + j * j := Nat.mod_eq_of_lt within
        rw [positionAfter_add inside, ← again]
        exact ⟨slotAt_lt (by omega) start j, passes_of_walk_eq_none inside walked (by nlinarith)⟩
  · rintro ⟨k, -, outside, passes⟩
    have late : size ≤ k := by
      by_contra early
      rw [positionAfter_eq inside (by omega)] at outside
      exact absurd (slotAt_lt (by omega) start k) (Nat.not_lt.mpr outside)
    have passesAll (i : Nat) (few : i < size) : stop (slotAt size start i) = false := by
      have passed := (passes i (by omega)).2
      rwa [positionAfter_eq inside few.le] at passed
    have gives := walk_eq_none size 0 (by omega) fun i _ few => passesAll i (by omega)
    rwa [slotAt_zero inside] at gives

end Positions

/-! ## Repetitions -/

private theorem index_unique_of_lt {size start i j : Nat} (prime : size.Prime)
    (less : i < j) (bounded : i + j < size) :
    slotAt size start i ≠ slotAt size start j := by
  intro equal
  have congruent : start + i * i ≡ start + j * j [MOD size] := equal
  have squares : i * i ≡ j * j [MOD size] :=
    Nat.ModEq.add_left_cancel' start congruent
  have divides : size ∣ j * j - i * i :=
    (Nat.modEq_iff_dvd' (Nat.mul_le_mul less.le less.le)).mp squares
  rw [Nat.mul_self_sub_mul_self_eq] at divides
  rcases (Nat.Prime.dvd_mul prime).mp divides with sum | difference
  · exact absurd (Nat.le_of_dvd (by omega) sum) (by omega)
  · exact absurd (Nat.le_of_dvd (by omega) difference) (by omega)

/-- For a prime size the first half of the probe sequence is repetition free. -/
theorem slotAt_injOn {size : Nat} (prime : size.Prime) (start : Nat) :
    Set.InjOn (slotAt size start) (Set.Iio ((size + 1) / 2)) := by
  intro i iBound j jBound equal
  simp only [Set.mem_Iio] at iBound jBound
  by_contra different
  rcases Nat.lt_or_gt_of_ne different with less | greater
  · exact index_unique_of_lt prime less (by omega) equal
  · exact index_unique_of_lt prime greater (by omega) equal.symm

/-- When fewer than `(size + 1) / 2` positions satisfy `occupied`, the first half
of every probe sequence meets a position that does not. -/
theorem exists_free_slotAt {size : Nat} (prime : size.Prime) (start : Nat)
    (occupied : Nat → Bool)
    (few : ((Finset.range size).filter fun p => occupied p).card < (size + 1) / 2) :
    ∃ k < (size + 1) / 2, occupied (slotAt size start k) = false := by
  by_contra full
  push Not at full
  have maps : (Finset.range ((size + 1) / 2)).image (slotAt size start) ⊆
      (Finset.range size).filter fun p => occupied p := by
    intro p member
    obtain ⟨k, kMember, rfl⟩ := Finset.mem_image.mp member
    have kBound := Finset.mem_range.mp kMember
    refine Finset.mem_filter.mpr ⟨Finset.mem_range.mpr (slotAt_lt prime.pos start k), ?_⟩
    simpa using full k kBound
  have injective : Set.InjOn (slotAt size start) (Finset.range ((size + 1) / 2)) := by
    simpa using slotAt_injOn prime start
  have counted := Finset.card_le_card maps
  rw [Finset.card_image_of_injOn injective, Finset.card_range] at counted
  omega

/-- Past the middle the sequence only revisits earlier positions. -/
theorem exists_slotAt_half {size : Nat} (odd : size % 2 = 1) (start k : Nat) :
    ∃ j < (size + 1) / 2, slotAt size start j = slotAt size start k := by
  have positive : 0 < size := by omega
  have reduced : slotAt size start (k % size) = slotAt size start k := by
    have square : (k % size) * (k % size) ≡ k * k [MOD size] :=
      (Nat.mod_modEq k size).mul (Nat.mod_modEq k size)
    exact square.add_left start
  have inside := Nat.mod_lt k positive
  by_cases small : k % size < (size + 1) / 2
  · exact ⟨k % size, small, reduced⟩
  · refine ⟨size - k % size, by omega, ?_⟩
    rw [← reduced]
    -- `(size - r)² = r² + size * (size - 2r)` read as a congruence.
    have mirrored : (size - k % size) * (size - k % size) + size * (2 * (k % size)) =
        (k % size) * (k % size) + size * size := by
      zify [inside.le]
      ring
    have congruent : (size - k % size) * (size - k % size) ≡
        (k % size) * (k % size) [MOD size] := by
      have left : (size - k % size) * (size - k % size) + size * (2 * (k % size)) ≡
          (size - k % size) * (size - k % size) [MOD size] := by
        simp [Nat.ModEq]
      have right : (k % size) * (k % size) + size * size ≡
          (k % size) * (k % size) [MOD size] := by
        simp [Nat.ModEq]
      rw [mirrored] at left
      exact left.symm.trans right
    exact congruent.add_left start

/-- Among enough keys any number of them start at the same position, whatever the hash
function. -/
theorem exists_colliding {κ : Type} [Fintype κ] (hash : κ → Nat) {size wanted : Nat}
    (positive : 0 < size) (many : size * wanted < Fintype.card κ) :
    ∃ (keys : List κ) (start : Nat), keys.length = wanted ∧ keys.Nodup ∧
      ∀ key ∈ keys, hash key % size = start := by
  have inside (key : κ) (_ : key ∈ Finset.univ) : hash key % size ∈ Finset.range size :=
    Finset.mem_range.mpr (Nat.mod_lt _ positive)
  obtain ⟨start, -, enough⟩ :=
    Finset.exists_lt_card_fiber_of_mul_lt_card_of_maps_to inside (by simpa using many)
  obtain ⟨keys, subset, count⟩ := Finset.exists_subset_card_eq enough.le
  refine ⟨keys.toList, start, by rw [Finset.length_toList, count], Finset.nodup_toList _, ?_⟩
  intro key member
  have fiber := subset (Finset.mem_toList.mp member)
  simpa using fiber

end FrameCode.QuadraticProbing
