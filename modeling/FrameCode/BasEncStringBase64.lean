import FrameCode.BasEncString
import FrameCode.BitGroups

/-!
# Text of binary data

Three bytes are four characters of text; a shorter last group is filled up with `=`, and different
bytes have different texts.  The decoder clears one byte too many in each of its rounds, so that it
has a result only for a text that is nothing but `=`.
-/

namespace FrameCode.BasEncString

open CText CheckedCopy StringBlocks BitGroups

/-! ## Characters -/

theorem findPos_base : ∀ place ≤ 64, findPos (base.getD place 0) = some place := by
  decide +kernel

theorem base_equal : base.getD 64 0 = 61 := rfl

theorem base_ne_equal {place : Nat} (inside : place < 64) : base.getD place 0 ≠ 61 := by
  intro equal
  have found := findPos_base place inside.le
  rw [equal, ← base_equal, findPos_base 64 (Nat.le_refl _), Option.some.injEq] at found
  exact inside.ne' found

theorem base_mem {place : Nat} (inside : place ≤ 64) : base.getD place 0 ∈ base := by
  have within : place < base.length := Nat.lt_of_le_of_lt inside (by decide)
  rw [List.getD_eq_getElem _ _ within]
  exact List.getElem_mem within

/-! ## Groups -/

/-- The characters of one to three bytes. -/
def groupText (bytes : List UInt8) : List UInt8 :=
  (unpack 6 (bytes.length + 1)
    (pack 8 (bytes.map UInt8.toNat) <<< (2 * (3 - bytes.length)))).map fun place =>
      base.getD place 0

/-- The characters in front of the `=`. -/
def bareText (bytes : List UInt8) : List UInt8 :=
  if bytes = [] then [] else groupText (bytes.take 3) ++ bareText (bytes.drop 3)
termination_by bytes.length
decreasing_by
  rw [List.length_drop]
  have := List.length_pos_iff.mpr ‹bytes ≠ []›
  omega

/-- The number of `=`. -/
def filling (bytes : List UInt8) : Nat := (3 - bytes.length % 3) % 3

/-- The whole text, with the `=` behind a short group. -/
def textOf (bytes : List UInt8) : List UInt8 := bareText bytes ++ List.replicate (filling bytes) 61

theorem bytes_small (bytes : List UInt8) : ∀ group ∈ bytes.map UInt8.toNat, group < 2 ^ 8 := by
  intro group member
  obtain ⟨byte, -, rfl⟩ := List.mem_map.mp member
  exact byte.toNat_lt

theorem map_foldl_pack (bytes : List UInt8) :
    bytes.foldl (fun prepare byte => prepare <<< 8 ||| byte.toNat) 0 =
      pack 8 (bytes.map UInt8.toNat) := by
  rw [pack, List.foldl_map]

theorem length_groupText (bytes : List UInt8) : (groupText bytes).length = bytes.length + 1 := by
  rw [groupText, List.length_map, length_unpack]

/-- What the encoder writes for a group. -/
theorem changed_eq {bytes : List UInt8} {temp : Nat} (size : bytes.length = temp)
    (most : temp ≤ 3) :
    ((List.range 4).map fun i =>
        if temp < i then 0x40
        else pack 8 (bytes.map UInt8.toNat) <<< ((3 - temp) * 8) >>> ((3 - i) * 6) &&& 0x3F).map
      (fun place => base.getD place 0) = groupText bytes ++ List.replicate (3 - temp) 61 := by
  have groups : 4 = temp + 1 + (3 - temp) := by omega
  rw [groups, List.range_add, List.map_append, List.map_append, groupText, unpack, size]
  congr 1
  · apply congrArg (List.map fun place => base.getD place 0)
    apply List.map_congr_left
    intro i member
    have inside := List.mem_range.mp member
    have notFilled : ¬ temp < i := by omega
    have left : (3 - temp) * 8 = 2 * (3 - temp) + (3 - temp) * 6 := by omega
    have right : (3 - i) * 6 = (3 - temp) * 6 + (temp + 1 - 1 - i) * 6 := by omega
    rw [if_neg notFilled, left, right, Nat.shiftLeft_add, Nat.shiftRight_add,
      Nat.shiftLeft_shiftRight]
    rfl
  · rw [List.map_map, List.map_map, List.eq_replicate_iff]
    refine ⟨by simp, ?_⟩
    intro char member
    obtain ⟨i, -, rfl⟩ := List.mem_map.mp member
    have filled : temp < temp + 1 + i := by omega
    simp only [Function.comp_apply, if_pos filled]
    exact base_equal

/-- The places of the characters of a group. -/
theorem mapM_findPos_groupText (bytes : List UInt8) :
    (groupText bytes).mapM findPos =
      some (unpack 6 (bytes.length + 1)
        (pack 8 (bytes.map UInt8.toNat) <<< (2 * (3 - bytes.length)))) := by
  have found : ∀ places : List Nat, (∀ place ∈ places, place < 2 ^ 6) →
      (places.map fun place => base.getD place 0).mapM findPos = some places := by
    intro places small
    induction places with
    | nil => rfl
    | cons place rest ih =>
        have first : findPos (base.getD place 0) = some place :=
          findPos_base place (small place (by simp)).le
        have others := ih fun other member => small other (List.mem_cons_of_mem _ member)
        rw [List.map_cons, List.mapM_cons, first, others]
        rfl
  exact found _ mem_unpack_lt

/-- The number that the places of a group make. -/
theorem pack_groupText {bytes : List UInt8} (most : bytes.length ≤ 3) :
    pack 6 (unpack 6 (bytes.length + 1)
        (pack 8 (bytes.map UInt8.toNat) <<< (2 * (3 - bytes.length)))) <<<
          ((4 - (bytes.length + 1)) * 6) =
      pack 8 (bytes.map UInt8.toNat ++ List.replicate (3 - bytes.length) 0) := by
  have bound : pack 8 (bytes.map UInt8.toNat) <<< (2 * (3 - bytes.length)) <
      2 ^ ((bytes.length + 1) * 6) := by
    have small := pack_lt (bytes_small bytes)
    have width : (bytes.length + 1) * 6 = bytes.length * 8 + 2 * (3 - bytes.length) := by omega
    rw [List.length_map] at small
    rw [width, pow_add, Nat.shiftLeft_eq]
    exact Nat.mul_lt_mul_of_pos_right small (Nat.two_pow_pos _)
  have shift : 2 * (3 - bytes.length) + (4 - (bytes.length + 1)) * 6 = (3 - bytes.length) * 8 := by
    omega
  rw [pack_unpack, Nat.mod_eq_of_lt bound, ← Nat.shiftLeft_add, shift, pack_append_zeros]

theorem toNat_map_injective : Function.Injective (List.map UInt8.toNat) :=
  List.map_injective_iff.mpr fun _ _ => UInt8.toNat_inj.mp

/-- Groups of as many bytes have the same text only when they are the same. -/
theorem groupText_injective {bytes other : List UInt8} (most : bytes.length ≤ 3)
    (size : other.length = bytes.length) (same : groupText bytes = groupText other) :
    bytes = other := by
  have small (bytes : List UInt8) : ∀ group ∈ bytes.map UInt8.toNat ++
      List.replicate (3 - bytes.length) 0, group < 2 ^ 8 := by
    intro group member
    rcases List.mem_append.mp member with byte | zero
    · exact bytes_small bytes group byte
    · rw [List.eq_of_mem_replicate zero]
      exact Nat.two_pow_pos 8
  have places := mapM_findPos_groupText bytes
  rw [same, mapM_findPos_groupText other, Option.some.injEq] at places
  have numbers := pack_groupText most
  rw [← places, ← size, pack_groupText (size.trans_le most)] at numbers
  have whole := unpack_pack (small bytes)
  rw [← size, ← numbers] at whole
  have back := unpack_pack (small other)
  simp only [List.length_append, List.length_map, List.length_replicate, size] at whole back
  rw [back] at whole
  exact (toNat_map_injective (List.append_cancel_right whole)).symm

theorem equal_notMem_groupText (bytes : List UInt8) : 61 ∉ groupText bytes := by
  intro member
  obtain ⟨place, inside, char⟩ := List.mem_map.mp member
  exact base_ne_equal (mem_unpack_lt place inside) char

/-- The number of `=` gives the number of bytes. -/
theorem groupText_filled_injective {bytes other : List UInt8} (most : bytes.length ≤ 3)
    (otherMost : other.length ≤ 3)
    (same : groupText bytes ++ List.replicate (3 - bytes.length) 61 =
      groupText other ++ List.replicate (3 - other.length) 61) : bytes = other := by
  have counts := congrArg (List.count 61) same
  rw [List.count_append, List.count_append, List.count_replicate_self, List.count_replicate_self,
    List.count_eq_zero.mpr (equal_notMem_groupText bytes),
    List.count_eq_zero.mpr (equal_notMem_groupText other)] at counts
  have size : other.length = bytes.length := by omega
  rw [size] at same
  exact groupText_injective most size (List.append_cancel_right same)

/-! ## Loops -/

theorem bareText_nil : bareText [] = [] := by
  rw [bareText, if_pos rfl]

theorem bareText_eq {bytes : List UInt8} (nonempty : bytes ≠ []) :
    bareText bytes = groupText (bytes.take 3) ++ bareText (bytes.drop 3) := by
  rw [bareText, if_neg nonempty]

/-- All groups in front of the last one are full. -/
theorem textOf_eq {bytes : List UInt8} (nonempty : bytes ≠ []) :
    textOf bytes = groupText (bytes.take 3) ++ List.replicate (3 - (bytes.take 3).length) 61 ++
      textOf (bytes.drop 3) := by
  have positive := List.length_pos_iff.mpr nonempty
  rw [textOf, textOf, bareText_eq nonempty]
  by_cases short : bytes.length ≤ 3
  · have last : bytes.drop 3 = [] := List.drop_eq_nil_iff.mpr short
    have fill : filling bytes = 3 - bytes.length := by
      unfold filling
      omega
    rw [last, bareText_nil, List.take_of_length_le short, fill]
    simp [filling]
  · have full : (bytes.take 3).length = 3 := by
      rw [List.length_take]
      omega
    have fill : filling (bytes.drop 3) = filling bytes := by
      unfold filling
      rw [List.length_drop]
      omega
    rw [full, fill, Nat.sub_self, List.replicate_zero, List.append_nil, List.append_assoc]

theorem textOf_nil : textOf [] = [] := by
  rw [textOf, bareText_nil]
  rfl

theorem write_nul {out : List UInt8} {spare : Nat} (room : 0 < spare) :
    write (out ++ List.replicate spare 0) out.length [0] =
      some (out ++ List.replicate spare 0) := by
  rw [write_behind out [0] room, List.append_assoc]
  congr 2
  obtain ⟨less, rfl⟩ := Nat.exists_eq_succ_of_ne_zero room.ne'
  rfl

theorem read_group {before bytes rest : List UInt8} {temp : Nat} (inside : temp ≤ bytes.length) :
    read (before ++ bytes ++ rest) before.length temp = some (bytes.take temp) := by
  have within : (before.length : Int) + temp ≤ (before ++ bytes ++ rest).length := by
    simp only [List.length_append]
    omega
  rw [read_eq (Int.natCast_nonneg temp) within, List.append_assoc, List.drop_left,
    Int.toNat_natCast, List.take_append_of_le_length inside]

section Encoding

variable {data bytes ret after : List UInt8} {dataLen fuel tmp f temp : Nat}

/-- One round of the encoder. -/
theorem encodeLoop_more (more : tmp < dataLen) (size : min 3 (dataLen - tmp) = temp)
    (found : read data tmp temp = some bytes) (length : bytes.length = temp)
    (written : write ret f (groupText bytes ++ List.replicate (3 - temp) 61) = some after) :
    encodeLoop data dataLen (fuel + 1) tmp f ret =
      encodeLoop data dataLen fuel (tmp + temp) (f + 4) after := by
  have changed := changed_eq length (size ▸ Nat.min_le_left 3 _)
  rw [encodeLoop, if_pos more, size]
  simp only [found, Option.bind_eq_bind, Option.bind_some, map_foldl_pack]
  rw [changed, written, Option.bind_some]

theorem encodeLoop_done (done : dataLen ≤ tmp) :
    encodeLoop data dataLen (fuel + 1) tmp f ret = write ret f [0] := by
  rw [encodeLoop, if_neg (Nat.not_lt.mpr done)]

end Encoding

theorem encodeLoop_eq (fuel : Nat) : ∀ {before bytes rest out : List UInt8} {spare : Nat},
    bytes.length < fuel → (textOf bytes).length < spare →
    encodeLoop (before ++ bytes ++ rest) (before.length + bytes.length) fuel before.length
        out.length (out ++ List.replicate spare 0) =
      some (out ++ textOf bytes ++ List.replicate (spare - (textOf bytes).length) 0) := by
  induction fuel with
  | zero => exact fun enough => absurd enough (Nat.not_lt_zero _)
  | succ fuel ih =>
      intro before bytes rest out spare enough room
      by_cases nonempty : bytes = []
      · subst nonempty
        rw [textOf_nil] at room ⊢
        rw [List.length_nil, Nat.add_zero, encodeLoop_done (Nat.le_refl _), write_nul room,
          List.append_nil, Nat.sub_zero]
      · have positive := List.length_pos_iff.mpr nonempty
        have size : (bytes.take 3).length = min 3 bytes.length := List.length_take
        have temp : min 3 (before.length + bytes.length - before.length) = min 3 bytes.length := by
          rw [Nat.add_sub_cancel_left]
        have taken : bytes.take (min 3 bytes.length) = bytes.take 3 := by
          rw [List.take_eq_take_iff]
          omega
        have found : read (before ++ bytes ++ rest) before.length (min 3 bytes.length : Nat) =
            some (bytes.take 3) := by
          rw [read_group (Nat.min_le_right 3 _), taken]
        have length : (groupText (bytes.take 3) ++
            List.replicate (3 - min 3 bytes.length) 61).length = 4 := by
          rw [List.length_append, length_groupText, List.length_replicate, size]
          omega
        have whole := textOf_eq nonempty
        rw [size] at whole
        have fits : 4 ≤ spare := by
          rw [whole, List.length_append, length] at room
          omega
        have copied : write (out ++ List.replicate spare 0) out.length _ = some _ :=
          write_behind out _ (length.trans_le fits)
        have shorter : (bytes.drop 3).length < fuel := by
          rw [List.length_drop]
          omega
        have spared : (textOf (bytes.drop 3)).length < spare - 4 := by
          rw [whole, List.length_append, length] at room
          omega
        have next := @ih (before ++ bytes.take 3) (bytes.drop 3) rest
          (out ++ (groupText (bytes.take 3) ++ List.replicate (3 - min 3 bytes.length) 61))
          (spare - 4) shorter spared
        have joined : before ++ bytes.take 3 ++ bytes.drop 3 = before ++ bytes := by
          rw [List.append_assoc, List.take_append_drop]
        have place : (before ++ bytes.take 3).length = before.length + min 3 bytes.length := by
          rw [List.length_append, size]
        have limit : before.length + min 3 bytes.length + (bytes.drop 3).length =
            before.length + bytes.length := by
          rw [List.length_drop]
          omega
        have behind : (out ++ (groupText (bytes.take 3) ++
            List.replicate (3 - min 3 bytes.length) 61)).length = out.length + 4 := by
          rw [List.length_append, length]
        rw [joined, place, limit, behind] at next
        rw [encodeLoop_more (Nat.lt_add_of_pos_right positive) temp found size copied, length, next,
          whole, List.length_append, length, Nat.sub_sub]
        simp only [List.append_assoc]

theorem length_bareText (bytes : List UInt8) :
    (bareText bytes).length = bytes.length + (bytes.length + 2) / 3 := by
  induction bytes using bareText.induct with
  | case1 => rw [bareText_nil]; rfl
  | case2 bytes nonempty ih =>
      have positive := List.length_pos_iff.mpr nonempty
      rw [bareText_eq nonempty, List.length_append, length_groupText, ih, List.length_take,
        List.length_drop]
      omega

theorem length_textOf (bytes : List UInt8) :
    (textOf bytes).length = (bytes.length + 2) / 3 * 4 := by
  rw [textOf, List.length_append, length_bareText, List.length_replicate]
  unfold filling
  omega

/-- The encoder writes the whole text and its NUL, and nothing behind its memory. -/
theorem base64Encode_eq (bytes rest : List UInt8) :
    base64Encode (bytes ++ rest) bytes.length = some (textOf bytes ++ [0]) := by
  have length := length_textOf bytes
  have size : (if bytes.length % 3 > 0 then bytes.length / 3 + 1 else bytes.length / 3) * 4 + 1 =
      (textOf bytes).length + 1 := by
    rw [length]
    split <;> omega
  have encoded := @encodeLoop_eq (bytes.length + 1) [] bytes rest [] ((textOf bytes).length + 1)
    (Nat.lt_succ_self _) (Nat.lt_succ_self _)
  rw [base64Encode, size]
  simp only [List.nil_append, List.length_nil, Nat.zero_add] at encoded
  exact encoded.trans (by rw [Nat.add_sub_cancel_left]; rfl)

/-- No character in front of the filling is a `=`. -/
theorem equal_notMem_bareText (bytes : List UInt8) : 61 ∉ bareText bytes := by
  induction bytes using bareText.induct with
  | case1 => rw [bareText_nil]; exact List.not_mem_nil
  | case2 bytes nonempty ih =>
      rw [bareText_eq nonempty, List.mem_append, not_or]
      exact ⟨equal_notMem_groupText _, ih⟩

theorem mem_base_textOf (bytes : List UInt8) : ∀ char ∈ textOf bytes, char ∈ base := by
  intro char member
  rcases List.mem_append.mp member with bare | equal
  · induction bytes using bareText.induct with
    | case1 => exact absurd bare (by rw [bareText_nil]; exact List.not_mem_nil)
    | case2 bytes nonempty ih =>
        rw [bareText_eq nonempty] at bare
        rcases List.mem_append.mp bare with first | others
        · obtain ⟨place, inside, rfl⟩ := List.mem_map.mp first
          exact base_mem (mem_unpack_lt place inside).le
        · exact ih (List.mem_append_left _ others) others
  · rw [List.eq_of_mem_replicate equal, ← base_equal]
    exact base_mem (Nat.le_refl 64)

theorem textOf_injective : Function.Injective textOf := by
  intro bytes
  induction bytes using bareText.induct with
  | case1 =>
      intro other same
      have length := length_textOf other
      rw [← same, textOf_nil, List.length_nil] at length
      exact (List.length_eq_zero_iff.mp (by omega)).symm
  | case2 bytes nonempty ih =>
      intro other same
      have lengths := congrArg List.length same
      have positive := List.length_pos_iff.mpr nonempty
      rw [length_textOf, length_textOf] at lengths
      have otherNonempty : other ≠ [] := List.ne_nil_of_length_pos (by omega)
      have most (bytes : List UInt8) : (bytes.take 3).length ≤ 3 := List.length_take_le 3 bytes
      have four (bytes : List UInt8) : (groupText (bytes.take 3) ++
          List.replicate (3 - (bytes.take 3).length) 61).length = 4 := by
        have := most bytes
        rw [List.length_append, length_groupText, List.length_replicate]
        omega
      rw [textOf_eq nonempty, textOf_eq otherNonempty] at same
      obtain ⟨first, others⟩ := List.append_inj same ((four bytes).trans (four other).symm)
      rw [← List.take_append_drop 3 bytes, ← List.take_append_drop 3 other,
        groupText_filled_injective (most bytes) (most other) first, ih others]

/-- Encoding gives a multiple of four characters of `base`, with the `=` behind all others, and the
text of other bytes is another one. -/
theorem base64Encode_texts (bytes rest : List UInt8) :
    (∃ bare, base64Encode (bytes ++ rest) bytes.length =
        some (bare ++ List.replicate (filling bytes) 61 ++ [0]) ∧
      bare.length + filling bytes = (bytes.length + 2) / 3 * 4 ∧
      ∀ char ∈ bare, char ∈ base ∧ char ≠ 61) ∧
    ∀ other otherRest, base64Encode (other ++ otherRest) other.length =
        base64Encode (bytes ++ rest) bytes.length → other = bytes := by
  refine ⟨⟨bareText bytes, base64Encode_eq bytes rest, ?_, fun char member => ⟨?_, ?_⟩⟩, ?_⟩
  · rw [← length_textOf, textOf, List.length_append, List.length_replicate]
  · exact mem_base_textOf bytes char (List.mem_append_left _ member)
  · rintro rfl
    exact equal_notMem_bareText bytes member
  · intro other otherRest same
    rw [base64Encode_eq, base64Encode_eq, Option.some.injEq] at same
    exact textOf_injective (List.append_cancel_right same)

/-! ## Decoding -/

section Decoding

variable {data need ret : List UInt8} {count dataLen fuel tmp f : Nat}

/-- A round writes behind the array `need`. -/
theorem decodeLoop_eq_none (short : need.length < 4) (more : tmp < count) :
    decodeLoop data count fuel tmp f need ret = none := by
  have outside : memset need 0 0 4 = none := if_neg (by simp; omega)
  cases fuel with
  | zero => rfl
  | succ fuel =>
      rw [decodeLoop, if_pos more, outside]
      rfl

theorem charAt_eq_some_iff {place : Int} {char : UInt8} :
    charAt data place = some char ↔ 0 ≤ place ∧ data[place.toNat]? = some char := by
  unfold charAt
  split <;> simp_all

/-- The decoder has a result for three `=` and for no other text. -/
theorem base64Decode_eq_some_iff :
    base64Decode data dataLen = some ret ↔
      dataLen = 3 ∧ [61, 61, 61] <+: data ∧ ret = [0, 0] := by
  constructor
  · intro decoded
    simp only [base64Decode, Option.bind_eq_bind, Option.bind_eq_some_iff, equalCount,
      charAt_eq_some_iff, Option.some.injEq] at decoded
    obtain ⟨equals, ⟨last, lastAt, second, secondAt, third, ⟨inside, thirdAt⟩, counted⟩, looped⟩ :=
      decoded
    have few : [last, second, third].count 61 ≤ 3 := List.count_le_length
    have noRound : dataLen ≤ equals := by
      by_contra more
      rw [decodeLoop_eq_none (by simp) (by omega)] at looped
      cases looped
    obtain rfl : dataLen = 3 := by omega
    obtain rfl : equals = 3 := by omega
    have all := List.count_eq_length.mp counted
    refine ⟨rfl, ?_, (Option.some.inj looped).symm⟩
    match data, lastAt, secondAt, thirdAt with
    | _ :: _ :: _ :: rest, ⟨_, rfl⟩, ⟨_, rfl⟩, rfl =>
        rw [← all third (by simp), ← all second (by simp), ← all last (by simp)]
        exact ⟨rest, rfl⟩
  · rintro ⟨rfl, ⟨rest, rfl⟩, rfl⟩
    rfl

end Decoding

end FrameCode.BasEncString
