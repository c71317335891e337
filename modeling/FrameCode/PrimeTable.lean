import FrameCode.MachineInt
import FrameCode.QuadraticProbing
import Mathlib.Data.Nat.Prime.Basic
import Mathlib.Data.Fintype.BigOperators
import Mathlib.Data.List.Sort
import Mathlib.Data.List.GetD
import Mathlib.Tactic.NormNum.Prime
import Mathlib.Tactic.IntervalCases

/-!
# The prime table and the choice of a bucket count

`prime_number.h` lists the 78498 primes below one million in increasing order,
from 2 to 999983.  `bsearch_number_of_buckets` looks up the bucket count of a
hash table in it by binary search.  Both hash tables of the repository use the
same table and the same search.
-/

namespace FrameCode.PrimeTable

open MachineInt QuadraticProbing

/-- The table `prime_number`: the primes below one million. -/
def primeNumber : List Nat := (List.range 1000000).filter fun n => decide n.Prime

theorem mem_primeNumber {p : Nat} : p ∈ primeNumber ↔ p < 1000000 ∧ p.Prime := by
  simp [primeNumber]

theorem primeNumber_sorted : primeNumber.Pairwise (· < ·) :=
  List.pairwise_lt_range.filter _

theorem primeNumber_lt {i j : Nat} (less : i < j) (inside : j < primeNumber.length) :
    primeNumber.getD i 0 < primeNumber.getD j 0 := by
  rw [List.getD_eq_getElem _ _ (less.trans inside), List.getD_eq_getElem _ _ inside]
  exact List.pairwise_iff_getElem.mp primeNumber_sorted i j _ _ less

theorem getD_mem_primeNumber {i : Nat} (inside : i < primeNumber.length) :
    primeNumber.getD i 0 ∈ primeNumber := by
  rw [List.getD_eq_getElem _ _ inside]
  exact List.getElem_mem inside

theorem exists_index {p : Nat} (member : p ∈ primeNumber) :
    ∃ i < primeNumber.length, primeNumber.getD i 0 = p := by
  obtain ⟨i, inside, found⟩ := List.mem_iff_getElem.mp member
  exact ⟨i, inside, by rw [List.getD_eq_getElem _ _ inside, found]⟩

theorem two_mem : 2 ∈ primeNumber := mem_primeNumber.mpr ⟨by norm_num, Nat.prime_two⟩

theorem last_mem : 999983 ∈ primeNumber := mem_primeNumber.mpr ⟨by norm_num, by norm_num⟩

theorem primeNumber_first : primeNumber.getD 0 0 = 2 := by
  obtain ⟨i, inside, found⟩ := exists_index two_mem
  rcases Nat.eq_zero_or_pos i with rfl | later
  · exact found
  · have less := primeNumber_lt later inside
    have prime := (mem_primeNumber.mp (getD_mem_primeNumber (later.trans inside))).2
    have := prime.two_le
    omega

theorem one_lt_length : 1 < primeNumber.length := by
  obtain ⟨i, inside, found⟩ := exists_index last_mem
  have first := primeNumber_first
  have : i ≠ 0 := by
    rintro rfl
    omega
  omega

/-- No entry exceeds 999983, the last one. -/
theorem primeNumber_le {p : Nat} (member : p ∈ primeNumber) : p ≤ 999983 := by
  obtain ⟨bound, prime⟩ := mem_primeNumber.mp member
  by_contra larger
  push Not at larger
  interval_cases p <;> norm_num at prime

theorem primeNumber_last : primeNumber.getD (primeNumber.length - 1) 0 = 999983 := by
  have nonempty := one_lt_length
  obtain ⟨i, inside, found⟩ := exists_index last_mem
  have upper := primeNumber_le (getD_mem_primeNumber (i := primeNumber.length - 1) (by omega))
  rcases Nat.lt_or_eq_of_le (Nat.le_sub_one_of_lt inside) with earlier | same
  · have less := primeNumber_lt earlier (by omega)
    omega
  · rw [← same, found]

/-- Every entry after the first is odd. -/
theorem odd_of_later {i : Nat} (later : 0 < i) (inside : i < primeNumber.length) :
    primeNumber.getD i 0 % 2 = 1 := by
  have prime := (mem_primeNumber.mp (getD_mem_primeNumber inside)).2
  have less := primeNumber_lt later inside
  rw [primeNumber_first] at less
  exact (prime.eq_two_or_odd).resolve_left (by omega)

/-- The entries grow by at least two from the second on. -/
theorem index_le_primeNumber {i : Nat} (inside : i + 1 < primeNumber.length) :
    2 * i + 3 ≤ primeNumber.getD (i + 1) 0 := by
  induction i with
  | zero =>
      have less := primeNumber_lt Nat.zero_lt_one inside
      rw [primeNumber_first] at less
      exact less
  | succ i ih =>
      have before := ih (by omega)
      have less := primeNumber_lt (i := i + 1) (by omega) inside
      have odd := odd_of_later (i := i + 1) (by omega) (by omega)
      have oddNext := odd_of_later (i := i + 1 + 1) (by omega) inside
      omega

theorem length_le : primeNumber.length - 1 - 0 ≤ 2 ^ 19 := by
  have nonempty := one_lt_length
  have last := primeNumber_last
  obtain ⟨i, length⟩ : ∃ i, primeNumber.length - 1 = i + 1 :=
    Nat.exists_eq_add_of_le' (by omega)
  have room := index_le_primeNumber (i := i) (by omega)
  rw [length] at last ⊢
  omega

/-- The search loop.  Its interval shrinks at every step that does not hit the
target, and a hit leaves it unchanged forever, which is what running out of
fuel stands for. -/
def bsearchLoop (numberOfBuckets : Int) : Nat → Nat → Nat → Option Nat
  | 0, _, _ => none
  | fuel + 1, start, last =>
      if last - start > 1 then
        let i := (start + last) / 2
        if (primeNumber.getD i 0 : Int) < numberOfBuckets then
          bsearchLoop numberOfBuckets fuel i last
        else if (primeNumber.getD i 0 : Int) > numberOfBuckets then
          bsearchLoop numberOfBuckets fuel start i
        else bsearchLoop numberOfBuckets fuel start last
      else some (primeNumber.getD last 0)

def bsearchNumberOfBuckets (capacity : Int) : Option Nat :=
  bsearchLoop (toInt32 (2 * capacity)) primeNumber.length 0 (primeNumber.length - 1)

/-- What the search interval keeps: the target lies above its left end, unless
that is the first entry, and below its right end, unless that is the last. -/
structure Brackets (target : Int) (start last : Nat) : Prop where
  ordered : start < last
  inside : last < primeNumber.length
  above : start = 0 ∨ (primeNumber.getD start 0 : Int) < target
  below : last = primeNumber.length - 1 ∨ target < (primeNumber.getD last 0 : Int)

/-- Every round halves the interval. -/
theorem bsearchLoop_spec {target : Int} (even : target % 2 = 0) :
    ∀ (rounds start last : Nat), last - start ≤ 2 ^ rounds → Brackets target start last →
      ∃ start', Brackets target start' (start' + 1) ∧
        bsearchLoop target (rounds + 1) start last = some (primeNumber.getD (start' + 1) 0) := by
  intro rounds
  induction rounds with
  | zero =>
      intro start last short brackets
      have ordered := brackets.ordered
      obtain rfl : last = start + 1 := by omega
      exact ⟨start, brackets, by simp [bsearchLoop]⟩
  | succ rounds ih =>
      intro start last short brackets
      have ordered := brackets.ordered
      have inside := brackets.inside
      rw [Nat.pow_succ] at short
      by_cases wide : last - start > 1
      · have middleAbove : start < (start + last) / 2 := by omega
        have middleBelow : (start + last) / 2 < last := by omega
        have odd := odd_of_later (i := (start + last) / 2) (by omega) (by omega)
        rw [bsearchLoop, if_pos wide]
        by_cases less : (primeNumber.getD ((start + last) / 2) 0 : Int) < target
        · simp only [less, if_true]
          exact ih _ _ (by omega)
            ⟨middleBelow, brackets.inside, Or.inr less, brackets.below⟩
        · have greater : (primeNumber.getD ((start + last) / 2) 0 : Int) > target := by omega
          simp only [less, greater, if_false, if_true]
          exact ih _ _ (by omega)
            ⟨middleAbove, by omega, brackets.above, Or.inr greater⟩
      · obtain rfl : last = start + 1 := by omega
        exact ⟨start, brackets, by simp [bsearchLoop]⟩

/-- The whole table is a search interval of every target. -/
theorem whole_brackets {target : Int} : Brackets target 0 (primeNumber.length - 1) := by
  have nonempty := one_lt_length
  exact ⟨by omega, by omega, Or.inl rfl, Or.inl rfl⟩

/-- A search that has ended is not changed by more fuel. -/
theorem bsearchLoop_mono {target : Int} {fuel more start last p : Nat} (enough : fuel ≤ more)
    (found : bsearchLoop target fuel start last = some p) :
    bsearchLoop target more start last = some p := by
  induction fuel generalizing more start last with
  | zero => cases found
  | succ fuel ih =>
      obtain ⟨more, rfl⟩ := Nat.exists_eq_add_of_le' (Nat.one_le_of_lt enough)
      have fewer : fuel ≤ more := Nat.le_of_succ_le_succ enough
      rw [bsearchLoop] at found ⊢
      dsimp only at found ⊢
      split_ifs at found ⊢ with wide less greater
      · exact ih fewer found
      · exact ih fewer found
      · exact ih fewer found
      · exact found

theorem bsearchLoop_unique {target : Int} {fuel fuel' start last p q : Nat}
    (found : bsearchLoop target fuel start last = some p)
    (found' : bsearchLoop target fuel' start last = some q) : p = q := by
  have first := bsearchLoop_mono (Nat.le_max_left fuel fuel') found
  have second := bsearchLoop_mono (Nat.le_max_right fuel fuel') found'
  rw [first] at second
  exact Option.some.inj second

theorem toInt32_even (n : Int) : toInt32 (2 * n) % 2 = 0 := by
  unfold toInt32
  rw [Int.bmod_def]
  split <;> omega

/-- Twenty rounds are enough, whatever the capacity. -/
theorem bsearch_rounds {capacity : Int} {fuel p : Nat} (enough : 20 ≤ fuel)
    (found : bsearchNumberOfBuckets capacity = some p) :
    bsearchLoop (toInt32 (2 * capacity)) fuel 0 (primeNumber.length - 1) = some p := by
  obtain ⟨start, -, ended⟩ := bsearchLoop_spec (toInt32_even capacity) 19 0
    (primeNumber.length - 1) length_le whole_brackets
  rw [bsearchLoop_unique found ended]
  exact bsearchLoop_mono enough ended

/-- The right end of a bracket lies above every target below the last entry. -/
theorem Brackets.target_lt {target : Int} {start last : Nat}
    (brackets : Brackets target start last) (small : target < 999983) :
    target < (primeNumber.getD last 0 : Int) := by
  rcases brackets.below with final | greater
  · rw [final, primeNumber_last]
    exact small
  · exact greater

/-- No odd entry above the target lies left of a bracket that cannot shrink. -/
theorem Brackets.le_of_target_lt {target : Int} {start q : Nat}
    (brackets : Brackets target start (start + 1)) (member : q ∈ primeNumber) (odd : q % 2 = 1)
    (larger : target < (q : Int)) : primeNumber.getD (start + 1) 0 ≤ q := by
  have inside := brackets.inside
  obtain ⟨j, jInside, rfl⟩ := exists_index member
  have after : start < j := by
    by_contra notAfter
    rcases brackets.above with first | less
    · obtain rfl : j = 0 := by omega
      rw [primeNumber_first] at odd
      omega
    · rcases Nat.lt_or_eq_of_le (Nat.le_of_not_lt notAfter) with earlier | same
      · have := primeNumber_lt earlier (by omega)
        omega
      · subst same
        omega
  rcases Nat.lt_or_eq_of_le (Nat.succ_le_of_lt after) with later | same
  · exact (primeNumber_lt later jInside).le
  · rw [← same]

theorem Brackets.eq_last {target : Int} {start last : Nat}
    (brackets : Brackets target start last) (large : 999983 ≤ target) :
    primeNumber.getD last 0 = 999983 := by
  rcases brackets.below with final | greater
  · rw [final, primeNumber_last]
  · have := primeNumber_le (getD_mem_primeNumber brackets.inside)
    omega

/-- The search ends at an odd table entry: the least one above twice the
capacity, or the last one when there is none. -/
theorem bsearch_spec (capacity : Int) :
    ∃ p, bsearchNumberOfBuckets capacity = some p ∧ p ∈ primeNumber ∧ p % 2 = 1 ∧
      (toInt32 (2 * capacity) < 999983 → toInt32 (2 * capacity) < p ∧
        ∀ q ∈ primeNumber, q % 2 = 1 → toInt32 (2 * capacity) < q → p ≤ q) ∧
      (999983 ≤ toInt32 (2 * capacity) → p = 999983) := by
  have nonempty := one_lt_length
  have short (n : Nat) : n - 0 ≤ 2 ^ n := by
    rw [Nat.sub_zero]
    exact Nat.lt_two_pow_self.le
  obtain ⟨start, brackets, found⟩ := bsearchLoop_spec (toInt32_even capacity)
    (primeNumber.length - 1) 0 (primeNumber.length - 1) (short _) whole_brackets
  have inside := brackets.inside
  rw [Nat.sub_add_cancel (by omega)] at found
  refine ⟨_, found, getD_mem_primeNumber inside, odd_of_later (by omega) inside, ?_, ?_⟩
  · intro small
    exact ⟨brackets.target_lt small, fun q => brackets.le_of_target_lt⟩
  · exact brackets.eq_last

/-- The search over the sorted table, whose first entry is its only even one,
ends after at most twenty rounds and finds the least odd prime of the table above
twice the capacity, or the last entry when no entry lies above. -/
theorem bsearchNumberOfBuckets_least (capacity : Int) (nonnegative : 0 ≤ capacity)
    (bounded : capacity < 1073741824) :
    (primeNumber.Pairwise (· < ·) ∧ primeNumber.getD 0 0 = 2 ∧
      ∀ i, 0 < i → i < primeNumber.length → primeNumber.getD i 0 % 2 = 1) ∧
    ∃ p, bsearchNumberOfBuckets capacity = some p ∧
      (∀ fuel, 20 ≤ fuel → bsearchLoop (toInt32 (2 * capacity)) fuel 0
        (primeNumber.length - 1) = some p) ∧
      (2 * capacity < 999983 →
        IsLeast {q : Nat | q ∈ primeNumber ∧ q.Prime ∧ q % 2 = 1 ∧ 2 * capacity < (q : Int)} p) ∧
      (999983 ≤ 2 * capacity → p = 999983) := by
  constructor
  · exact ⟨primeNumber_sorted, primeNumber_first, fun i => odd_of_later⟩
  · obtain ⟨p, found, member, odd, least, greatest⟩ := bsearch_spec capacity
    have rounds (fuel : Nat) (enough : 20 ≤ fuel) := bsearch_rounds enough found
    have unwrapped : toInt32 (2 * capacity) = 2 * capacity := toInt32_eq (by omega) (by omega)
    rw [unwrapped] at least greatest
    refine ⟨p, found, rounds, ?_, greatest⟩
    intro small
    obtain ⟨larger, smallest⟩ := least small
    constructor
    · exact ⟨member, (mem_primeNumber.mp member).2, odd, larger⟩
    · rintro q ⟨qMember, -, qOdd, qLarger⟩
      exact smallest q qMember qOdd qLarger

theorem bsearchNumberOfBuckets_least_seven :
    bsearchNumberOfBuckets 7 = some 17 ∧ bsearchNumberOfBuckets 500000 = some 999983 := by
  constructor
  · obtain ⟨-, p, found, -, least, -⟩ :=
      bsearchNumberOfBuckets_least 7 (by norm_num) (by norm_num)
    obtain ⟨⟨-, prime, odd, larger⟩, smallest⟩ := least (by norm_num)
    have member : 17 ∈ primeNumber := mem_primeNumber.mpr ⟨by norm_num, by norm_num⟩
    have upper : p ≤ 17 := smallest ⟨member, by norm_num, by norm_num, by norm_num⟩
    have composite : p ≠ 15 := by
      rintro rfl
      norm_num at prime
    obtain rfl : p = 17 := by omega
    exact found
  · obtain ⟨-, p, found, -, -, greatest⟩ :=
      bsearchNumberOfBuckets_least 500000 (by norm_num) (by norm_num)
    obtain rfl := greatest (by norm_num)
    exact found

theorem bsearch_isSome (capacity : Int) : (bsearchNumberOfBuckets capacity).isSome := by
  obtain ⟨p, found, -⟩ := bsearch_spec capacity
  simp [found]

/-- The bucket count of a table created for a capacity. -/
def numberOfBuckets (capacity : Int) : Nat :=
  (bsearchNumberOfBuckets capacity).get (bsearch_isSome capacity)

theorem numberOfBuckets_mem (capacity : Int) : numberOfBuckets capacity ∈ primeNumber := by
  obtain ⟨p, found, member, -⟩ := bsearch_spec capacity
  simpa [numberOfBuckets, found] using member

theorem numberOfBuckets_prime (capacity : Int) : (numberOfBuckets capacity).Prime :=
  (mem_primeNumber.mp (numberOfBuckets_mem capacity)).2

theorem numberOfBuckets_odd (capacity : Int) : numberOfBuckets capacity % 2 = 1 := by
  obtain ⟨p, found, -, odd, -⟩ := bsearch_spec capacity
  simpa [numberOfBuckets, found] using odd

theorem numberOfBuckets_lt (capacity : Int) : numberOfBuckets capacity < 4294967296 :=
  lt_of_le_of_lt (primeNumber_le (numberOfBuckets_mem capacity)) (by norm_num)

private theorem half_numberOfBuckets {entries : Nat} (bounded : entries ≤ 499991) :
    2 * entries ≤ numberOfBuckets (2 * entries) / 2 ∨
      numberOfBuckets (2 * entries) / 2 = 499991 := by
  obtain ⟨p, found, -, -, least, greatest⟩ := bsearch_spec (2 * entries)
  have value : numberOfBuckets (2 * entries) = p := by simp [numberOfBuckets, found]
  rw [toInt32_eq (by omega) (by omega)] at least greatest
  rw [value]
  by_cases small : 2 * (2 * (entries : Int)) < 999983
  · have := (least small).1
    omega
  · have := greatest (by omega)
    omega

/-- A table rebuilt for up to 499991 entries is at most half full. -/
theorem numberOfBuckets_fits {entries : Nat} (bounded : entries ≤ 499991) :
    entries ≤ numberOfBuckets (2 * entries) / 2 := by
  rcases half_numberOfBuckets bounded with half | largest <;> omega

/-- Below that number one more entry fits. -/
theorem numberOfBuckets_room {entries : Nat} (bounded : entries < 499991) :
    entries < numberOfBuckets (2 * entries) / 2 := by
  have odd := numberOfBuckets_odd (2 * entries)
  have two_le := (numberOfBuckets_prime (2 * entries)).two_le
  rcases half_numberOfBuckets bounded.le with half | largest <;> omega

theorem entries_lt : 499991 < 1073741824 := by norm_num

theorem numberOfBuckets_zero : numberOfBuckets 0 = 3 := by
  obtain ⟨p, found, member, odd, least, -⟩ := bsearch_spec 0
  have value : numberOfBuckets 0 = p := by simp [numberOfBuckets, found]
  have three : 3 ∈ primeNumber := mem_primeNumber.mpr ⟨by norm_num, Nat.prime_three⟩
  have upper := (least (by decide)).2 3 three rfl (by decide)
  have lower := (mem_primeNumber.mp member).2.two_le
  omega

theorem numberOfBuckets_three : numberOfBuckets 3 = 7 := by
  obtain ⟨p, found, -, -, least, -⟩ := bsearch_spec 3
  have value : numberOfBuckets 3 = p := by simp [numberOfBuckets, found]
  have seven : 7 ∈ primeNumber := mem_primeNumber.mpr ⟨by norm_num, by norm_num⟩
  obtain ⟨lower, smallest⟩ := least (by decide)
  have unwrapped : toInt32 (2 * 3) = 6 := by decide
  rw [unwrapped] at lower smallest
  have upper := smallest 7 seven rfl (by decide)
  omega

attribute [irreducible] primeNumber bsearchNumberOfBuckets numberOfBuckets

/-! ## Keys that start at one bucket -/

/-- The text of 32 letters out of four. -/
def letters (word : Fin 32 → Fin 4) : List UInt8 :=
  List.ofFn fun k => UInt8.ofNat (65 + (word k).val)

theorem letter_injective : ∀ first second : Fin 4,
    UInt8.ofNat (65 + first.val) = UInt8.ofNat (65 + second.val) → first = second := by
  decide

theorem letter_ne_zero : ∀ letter : Fin 4, UInt8.ofNat (65 + letter.val) ≠ 0 := by
  decide

theorem letters_injective : Function.Injective letters := by
  intro first second same
  funext k
  exact letter_injective _ _ (congrFun (List.ofFn_injective same) k)

/-- Whatever the hash function, there are more texts of 32 bytes that start at one bucket of the
largest table than it has room for. -/
theorem exists_overfilling (hash : List UInt8 → Nat) :
    ∃ (second first : List UInt8) (words : List (List UInt8)) (start : Nat),
      words.length = 499991 ∧ (second :: first :: words).Nodup ∧
      ∀ word ∈ second :: first :: words,
        (word.length = 32 ∧ ∀ c ∈ word, c ≠ 0) ∧ hash word % 999983 = start := by
  have many : 999983 * 499993 < Fintype.card (Fin 32 → Fin 4) := by
    rw [Fintype.card_fun, Fintype.card_fin, Fintype.card_fin]
    norm_num
  obtain ⟨keys, start, count, fresh, collide⟩ :=
    exists_colliding (fun word => hash (letters word)) (by norm_num) many
  match keys, count with
  | second :: first :: rest, count =>
  refine ⟨letters second, letters first, rest.map letters, start, ?_, ?_, ?_⟩
  · rw [List.length_map]
    simpa using count
  · exact fresh.map letters_injective
  · intro word member
    obtain ⟨key, keyMember, rfl⟩ := List.mem_map.mp
      (show word ∈ (second :: first :: rest).map letters from member)
    refine ⟨⟨List.length_ofFn, fun c cMember => ?_⟩, collide key keyMember⟩
    obtain ⟨k, rfl⟩ := (List.mem_ofFn' _ _).mp cMember
    exact letter_ne_zero (key k)

end FrameCode.PrimeTable
