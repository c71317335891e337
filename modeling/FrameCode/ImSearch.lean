import FrameCode.ImHashtable

/-!
# The search loop of the hash table

`im_find_element` keeps its position in an `int` and compares and reduces it by the unsigned
number of buckets.  The loop on these 32-bit numbers examines the first buckets of the probe
sequence and ends within its first half.
-/

namespace FrameCode.ImHashtable

open OpenAddressing ImTypes MachineInt PrimeTable QuadraticProbing

variable {ε : Type}

/-- `if(position >= number_of_buckets) position -= number_of_buckets`, with the position taken
as unsigned. -/
def reducePosition (numberOfBuckets : Nat) (position : Int) : Int :=
  if numberOfBuckets ≤ position % 4294967296 then
    toInt32 (position % 4294967296 - numberOfBuckets)
  else position

/-- The body of the loop, for the collision count after its increment. -/
def nextPosition (numberOfBuckets : Nat) (position collision : Int) : Int :=
  reducePosition numberOfBuckets
    (reducePosition numberOfBuckets (toInt32 (position + (toInt32 (2 * collision) - 1))))

/-- The positions that the loop examines; the last one is returned.  A position without a
bucket is `none`, as is a loop that takes more steps than the fuel. -/
def examinedPositions (hashtable : ImHashtable ε) (key : List UInt8) :
    Nat → Int → Int → Option (List Int)
  | 0, _, _ => none
  | fuel + 1, position, collision =>
      if 0 ≤ position ∧ position < hashtable.buckets.length then
        if hashtable.stops (imOps ε) (cString keyMaxLength key) position.toNat then
          some [position]
        else
          (examinedPositions hashtable key fuel
            (nextPosition hashtable.numberOfBuckets position (toInt32 (collision + 1)))
            (toInt32 (collision + 1))).map (position :: ·)
      else none

/-! ## The arithmetic -/

/-- A number below 2³¹ that the reduction may be applied to. -/
theorem reducePosition_ofNat {size n : Nat} (small : n < 2147483648) :
    reducePosition size n = ((if size ≤ n then n - size else n : Nat) : Int) := by
  have unsigned : (n : Int) % 4294967296 = n := Int.emod_eq_of_lt (by omega) (by omega)
  unfold reducePosition
  rw [unsigned]
  by_cases large : size ≤ n
  · rw [if_pos (by exact_mod_cast large), if_pos large, toInt32_eq (by omega) (by omega)]
    omega
  · rw [if_neg (by exact_mod_cast large), if_neg large]

/-- On numbers that stay in range the body of the loop is the step of the probe walk. -/
theorem nextPosition_ofNat {size position collision : Nat} (positive : 0 < collision)
    (small : position + 2 * collision < 2147483648) :
    nextPosition size position collision = advance size position collision := by
  have doubled : toInt32 (2 * (collision : Int)) = 2 * collision :=
    toInt32_eq (by omega) (by omega)
  have moved : toInt32 ((position : Int) + (2 * collision - 1)) =
      ((position + (2 * collision - 1) : Nat) : Int) := by
    rw [toInt32_eq (by omega) (by omega)]
    omega
  have reduced : (if size ≤ position + (2 * collision - 1)
      then position + (2 * collision - 1) - size
      else position + (2 * collision - 1)) < 2147483648 := by
    split <;> omega
  unfold nextPosition
  rw [doubled, moved, reducePosition_ofNat (by omega), reducePosition_ofNat reduced]
  rfl

theorem numberOfBuckets_le {hashtable : ImHashtable ε} (inv : hashtable.Inv (imOps ε)) :
    hashtable.numberOfBuckets ≤ 999983 := by
  obtain ⟨capacity, sized⟩ := inv.sized
  rw [sized]
  exact primeNumber_le (numberOfBuckets_mem capacity)

/-! ## The loop -/

section Loop

variable {hashtable : ImHashtable ε} {key : List UInt8}

/-- The loop examines the probe sequence up to the first position where it stops. -/
theorem examinedPositions_eq (inv : hashtable.Inv (imOps ε)) {last : Nat}
    (stops : hashtable.stops (imOps ε) (cString keyMaxLength key)
      (hashtable.probe (imOps ε) (cString keyMaxLength key) last) = true)
    (before : ∀ i < last, hashtable.stops (imOps ε) (cString keyMaxLength key)
      (hashtable.probe (imOps ε) (cString keyMaxLength key) i) = false)
    (inside : last < hashtable.numberOfBuckets) {fuel k : Nat} (lower : k ≤ last)
    (upper : last < k + fuel) :
    examinedPositions hashtable key fuel
        (hashtable.probe (imOps ε) (cString keyMaxLength key) k) k =
      some ((List.range' k (last + 1 - k)).map fun i =>
        (hashtable.probe (imOps ε) (cString keyMaxLength key) i : Int)) := by
  have sizeBound := numberOfBuckets_le inv
  induction fuel generalizing k with
  | zero => omega
  | succ fuel ih =>
      have here := inv.probe_lt (cString keyMaxLength key) k
      have guard : 0 ≤ (hashtable.probe (imOps ε) (cString keyMaxLength key) k : Int) ∧
          (hashtable.probe (imOps ε) (cString keyMaxLength key) k : Int) <
            hashtable.buckets.length := by
        rw [inv.length_buckets]
        omega
      rw [examinedPositions, if_pos guard, Int.toNat_natCast]
      rcases Nat.lt_or_eq_of_le lower with earlier | rfl
      · have collision : toInt32 ((k : Int) + 1) = ((k + 1 : Nat) : Int) := by
          rw [toInt32_eq (by omega) (by omega)]
          rfl
        have step : nextPosition hashtable.numberOfBuckets
            (hashtable.probe (imOps ε) (cString keyMaxLength key) k) ((k + 1 : Nat) : Int) =
            hashtable.probe (imOps ε) (cString keyMaxLength key) (k + 1) := by
          rw [nextPosition_ofNat (by omega) (by omega)]
          exact congrArg Nat.cast (advance_slotAt (by omega) _)
        have count : last + 1 - k = (last + 1 - (k + 1)) + 1 := by omega
        rw [before k earlier, collision, step, ih earlier (by omega), count, List.range'_succ]
        rfl
      · rw [stops, Nat.add_sub_cancel_left]
        rfl

theorem probe_zero (inv : hashtable.Inv (imOps ε)) (key : List UInt8) :
    hashtable.probe (imOps ε) (cString keyMaxLength key) 0 =
      imHashcode key % hashtable.numberOfBuckets := by
  rw [Table.probe, slotAt_zero (Nat.mod_lt _ inv.prime.pos)]
  exact congrArg (· % hashtable.numberOfBuckets) (imHashcode_cString key)

/-- The loop ends after at most half of the buckets, rounded up. -/
theorem exists_examinedPositions (inv : hashtable.Inv (imOps ε)) (key : List UInt8) :
    ∃ positions, ∀ fuel, (hashtable.numberOfBuckets + 1) / 2 ≤ fuel →
      examinedPositions hashtable key fuel
        ((imHashcode key % hashtable.numberOfBuckets : Nat) : Int) 0 = some positions := by
  obtain ⟨last, bound, -, stops, before⟩ := inv.find_spec (cString keyMaxLength key)
  rw [← probe_zero inv key]
  exact ⟨_, fun fuel enough => examinedPositions_eq inv stops before (by omega) (Nat.zero_le last)
    (by omega)⟩

/-- `im_find_element` ends after at most half of the buckets, rounded up, with every position
and every intermediate sum in range, at an EMPTY bucket or at the only used bucket with the
key. -/
theorem imFindElement_bounded (inv : hashtable.Inv (imOps ε)) (key : List UInt8) :
    ∃ (positions : List Int) (position : Nat),
      (∀ fuel, (hashtable.numberOfBuckets + 1) / 2 ≤ fuel →
        examinedPositions hashtable key fuel
          ((imHashcode key % hashtable.numberOfBuckets : Nat) : Int) 0 = some positions) ∧
      positions.length ≤ (hashtable.numberOfBuckets + 1) / 2 ∧
      (∀ p ∈ positions, 0 ≤ p ∧ p < hashtable.numberOfBuckets ∧
        ∀ collision : Int, 0 < collision → collision ≤ positions.length →
          p + (2 * collision - 1) < 2147483648) ∧
      positions.getLast? = some (position : Int) ∧
      imFindElement hashtable key = some position ∧
      ((hashtable.slot (imOps ε) position).value.status = .empty ∨
        (cString keyMaxLength (hashtable.slot (imOps ε) position).key =
            cString keyMaxLength key ∧
          ∀ q < hashtable.numberOfBuckets,
            (hashtable.slot (imOps ε) q).value.status ≠ .empty →
            cString keyMaxLength (hashtable.slot (imOps ε) q).key = cString keyMaxLength key →
            q = position)) := by
  obtain ⟨last, bound, found, stops, before⟩ := inv.find_spec (cString keyMaxLength key)
  have sizeBound := numberOfBuckets_le inv
  refine ⟨(List.range' 0 (last + 1)).map fun i =>
      (hashtable.probe (imOps ε) (cString keyMaxLength key) i : Int),
    hashtable.probe (imOps ε) (cString keyMaxLength key) last, ?_, ?_, ?_, ?_, found, ?_⟩
  · intro fuel enough
    rw [← probe_zero inv key]
    exact examinedPositions_eq inv stops before (by omega) (Nat.zero_le last) (by omega)
  · rw [List.length_map, List.length_range']
    omega
  · intro p member
    obtain ⟨i, -, rfl⟩ := List.mem_map.mp member
    have inside := inv.probe_lt (cString keyMaxLength key) i
    refine ⟨by omega, by omega, fun collision _ few => ?_⟩
    rw [List.length_map, List.length_range'] at few
    omega
  · rw [List.range'_1_concat, List.map_append, List.map_singleton, List.getLast?_concat]
    simp
  · obtain ⟨-, unique, keyOf, -⟩ := inv.sound.find_some found
    by_cases used : hashtable.Occupied (imOps ε)
        (hashtable.probe (imOps ε) (cString keyMaxLength key) last)
    · exact Or.inr ⟨keyOf used, unique⟩
    · exact Or.inl (not_not.mp used)

/-- The third examined bucket has the key, behind a DELETED and a live one. -/
theorem imFindElement_bounded_probed :
    ∃ (positions : List Int) (position : Nat),
      examinedPositions probedTable (letterKey 107) 4
        ((imHashcode (letterKey 107) % 7 : Nat) : Int) 0 = some positions ∧
      positions.length ≤ 4 ∧ positions = [2, 3, 6] ∧
      imFindElement probedTable (letterKey 107) = some position ∧ position = 6 ∧
      ∀ q < 7, (probedTable.slot (imOps Owned) q).value.status ≠ .empty →
        cString keyMaxLength (probedTable.slot (imOps Owned) q).key =
          cString keyMaxLength (letterKey 107) → q = position := by
  obtain ⟨positions, position, walked, few, -, last, found, used⟩ :=
    imFindElement_bounded probedTable_inv (letterKey 107)
  have examined : examinedPositions probedTable (letterKey 107) 4
      ((imHashcode (letterKey 107) % 7 : Nat) : Int) 0 = some [2, 3, 6] := by
    decide +kernel
  have same : positions = [2, 3, 6] := Option.some.inj ((walked 4 le_rfl).symm.trans examined)
  obtain rfl : position = 6 := by
    have final : ([2, 3, 6] : List Int).getLast? = some 6 := rfl
    rw [same, final, Option.some.injEq] at last
    exact_mod_cast last.symm
  refine ⟨positions, 6, walked 4 le_rfl, few, same, found, rfl, ?_⟩
  rcases used with empty | ⟨-, unique⟩
  · cases empty
  · exact unique

/-! ## Leaving the table -/

/-- The position and the collision count after a number of turns of the loop, whatever the
buckets hold. -/
def turned (numberOfBuckets start : Nat) : Nat → Int × Int
  | 0 => (start, 0)
  | turns + 1 =>
      let (position, collision) := turned numberOfBuckets start turns
      (nextPosition numberOfBuckets position (toInt32 (collision + 1)), toInt32 (collision + 1))

theorem turned_eq {size start : Nat} (small : size ≤ 999983) {turns : Nat}
    (few : turns ≤ 2 * size) (within : ∀ i < turns, positionAfter size start i < size) :
    turned size start turns = ((positionAfter size start turns : Int), (turns : Int)) := by
  induction turns with
  | zero => rfl
  | succ turns ih =>
      have position := within turns (Nat.lt_succ_self turns)
      have collision : toInt32 ((turns : Int) + 1) = ((turns + 1 : Nat) : Int) := by
        rw [toInt32_eq (by omega) (by omega)]
        rfl
      rw [turned, ih (by omega) fun i less => within i (Nat.lt_succ_of_lt less)]
      simp only [collision]
      rw [nextPosition_ofNat (by omega) (by omega)]
      rfl

/-- On a table of any contents, the loop of `im_find_element` stops at one of the first
positions, or else passes buckets with other keys until, within twice as many turns as there are
buckets, its position is behind the last one. -/
theorem imFindElement_none_iff (sized : hashtable.numberOfBuckets ∈ primeNumber)
    (key : List UInt8) :
    imFindElement hashtable key = none ↔
      ∃ turns ≤ 2 * hashtable.numberOfBuckets,
        (hashtable.numberOfBuckets : Int) ≤ (turned hashtable.numberOfBuckets
          (imHashcode key % hashtable.numberOfBuckets) turns).1 ∧
        ∀ i < turns, ∃ position < hashtable.numberOfBuckets,
          (turned hashtable.numberOfBuckets
            (imHashcode key % hashtable.numberOfBuckets) i).1 = position ∧
          (hashtable.slot (imOps ε) position).value.status ≠ .empty ∧
          cString keyMaxLength (hashtable.slot (imOps ε) position).key ≠
            cString keyMaxLength key := by
  have positive := (mem_primeNumber.mp sized).2.pos
  have small := primeNumber_le sized
  have hashEq : (imOps ε).hash (cString keyMaxLength key) = imHashcode key :=
    imHashcode_cString key
  have passes (position : Nat) :
      hashtable.stops (imOps ε) (cString keyMaxLength key) position = false ↔
        (hashtable.slot (imOps ε) position).value.status ≠ .empty ∧
          cString keyMaxLength (hashtable.slot (imOps ε) position).key ≠
            cString keyMaxLength key := by
    rw [Table.stops, Bool.or_eq_false_iff, decide_eq_false_iff_not, decide_eq_false_iff_not]
    rfl
  have turnedEq {turns : Nat} (few : turns ≤ 2 * hashtable.numberOfBuckets)
      (within : ∀ i < turns, positionAfter hashtable.numberOfBuckets
        (imHashcode key % hashtable.numberOfBuckets) i < hashtable.numberOfBuckets) :
      (turned hashtable.numberOfBuckets (imHashcode key % hashtable.numberOfBuckets) turns).1 =
        (positionAfter hashtable.numberOfBuckets
          (imHashcode key % hashtable.numberOfBuckets) turns : Int) :=
    congrArg Prod.fst (turned_eq small few within)
  rw [imFindElement, Table.find_eq_none_iff _ positive, hashEq]
  constructor
  · rintro ⟨turns, few, outside, before⟩
    have within (i : Nat) (less : i < turns) := (before i less).1
    refine ⟨turns, Nat.lt_succ_iff.mp few, ?_, fun i less => ?_⟩
    · rw [turnedEq (Nat.lt_succ_iff.mp few) within]
      exact_mod_cast outside
    · exact ⟨_, within i less,
        turnedEq (by omega) fun j earlier => within j (earlier.trans less),
        (passes _).mp (before i less).2⟩
  · rintro ⟨turns, few, outside, before⟩
    -- as long as the positions stay inside they are those of the walk
    have within (i : Nat) : i < turns →
        positionAfter hashtable.numberOfBuckets
          (imHashcode key % hashtable.numberOfBuckets) i < hashtable.numberOfBuckets := by
      induction i using Nat.strongRecOn with
      | ind i ih =>
          intro less
          obtain ⟨position, inside, same, -⟩ := before i less
          rw [turnedEq (by omega) fun j earlier => ih j earlier (earlier.trans less),
            Int.natCast_inj] at same
          exact same.trans_lt inside
    refine ⟨turns, Nat.lt_succ_of_le few, ?_, fun i less => ⟨within i less, ?_⟩⟩
    · rw [turnedEq few within] at outside
      exact_mod_cast outside
    · obtain ⟨position, -, same, passed⟩ := before i less
      rw [turnedEq (by omega) fun j earlier => within j (earlier.trans less),
        Int.natCast_inj] at same
      exact same ▸ (passes position).mpr passed

end Loop

/-- Three buckets, with two other keys on the probe path of `"k"`. -/
def blockedTable : ImHashtable Owned where
  numberOfBuckets := 3
  inuse := 2
  empty := 1
  extra := Attached.none
  buckets := [⟨⟨4, .num .int 1⟩, letterKey 97⟩, blankBucket, ⟨⟨4, .num .int 2⟩, letterKey 98⟩]

/-- The search leaves the table at the fourth turn. -/
theorem imFindElement_none_blocked :
    ∃ turns ≤ 6, 3 ≤ (turned 3 (imHashcode (letterKey 107) % 3) turns).1 := by
  have sized : blockedTable.numberOfBuckets ∈ primeNumber :=
    mem_primeNumber.mpr ⟨by decide, Nat.prime_three⟩
  obtain ⟨turns, few, outside, -⟩ :=
    (imFindElement_none_iff sized (letterKey 107)).mp (by decide +kernel)
  exact ⟨turns, few, outside⟩

end FrameCode.ImHashtable
