import FrameCode.BasEncrypt
import Mathlib.Tactic.IntervalCases

/-!
# Records

Decoding a record gives back the text that was encoded, whatever its bytes are and whenever it was
encoded: the mask only enters with its last eight bits, which the record carries.
-/

namespace FrameCode.BasEncrypt

open CText CheckedCopy StringBlocks
open LibHex (promote)

/-! ## Characters -/

theorem dec_enc (c : BitVec 32) : dec (enc c) = c &&& 0x3F := by
  have small : ∀ n : Fin 64, dec (UInt8.ofBitVec ((BitVec.ofNat 32 n.val + 32).truncate 8)) =
      BitVec.ofNat 32 n.val := by
    decide
  unfold enc
  split
  · have bound : (c &&& 0x3F).toNat < 64 := by
      rw [BitVec.toNat_and]
      exact Nat.lt_of_le_of_lt Nat.and_le_right (by decide)
    have value := small ⟨(c &&& 0x3F).toNat, bound⟩
    rwa [BitVec.ofNat_toNat, BitVec.setWidth_eq] at value
  · rename_i zero
    rw [not_not.mp zero]
    rfl

theorem dec_enc_ofNat {n : Nat} (small : n ≤ 51) : (dec (enc (BitVec.ofNat 32 n))).toNat = n := by
  have value : ∀ n : Fin 52, (BitVec.ofNat 32 n.val &&& 0x3F).toNat = n.val := by decide
  rw [dec_enc]
  exact value ⟨n, by omega⟩

theorem firstChar (x0 x1 : BitVec 32) :
    ((x0.sshiftRight 2 &&& 0x3F) <<< 2 |||
      (((x0 <<< 4 &&& 0x30) ||| (x1.sshiftRight 4 &&& 0x0F)) &&& 0x3F).sshiftRight 4).truncate 8 =
        x0.truncate 8 := by
  ext i small
  interval_cases i <;> simp [BitVec.getElem_sshiftRight]

theorem secondChar (x0 x1 x2 : BitVec 32) :
    ((((x0 <<< 4 &&& 0x30) ||| (x1.sshiftRight 4 &&& 0x0F)) &&& 0x3F) <<< 4 |||
      (((x1 <<< 2 &&& 0x3C) ||| (x2.sshiftRight 6 &&& 0x03)) &&& 0x3F).sshiftRight 2).truncate 8 =
        x1.truncate 8 := by
  ext i small
  interval_cases i <;> simp [BitVec.getElem_sshiftRight]

theorem thirdChar (x1 x2 : BitVec 32) :
    ((((x1 <<< 2 &&& 0x3C) ||| (x2.sshiftRight 6 &&& 0x03)) &&& 0x3F) <<< 6 |||
      ((x2 &&& 0x3F) &&& 0x3F)).truncate 8 = x2.truncate 8 := by
  ext i small
  interval_cases i <;> simp [BitVec.getElem_sshiftRight]

/-- A byte under the mask. -/
def masked (mask : BitVec 32) (c : UInt8) : UInt8 := toChar (xc mask c)

theorem masked_eq (mask : BitVec 32) (c : UInt8) :
    masked mask c = UInt8.ofBitVec (c.toBitVec ^^^ mask.truncate 8) := by
  have low : (promote c).truncate 8 = c.toBitVec := by
    ext i small
    have wide : i < 32 := by omega
    simp [promote, BitVec.getElem_signExtend, small, wide]
  rw [masked, toChar, xc, BitVec.truncate_eq_setWidth, BitVec.setWidth_xor,
    ← BitVec.truncate_eq_setWidth, low]

/-- Masking again gives the byte back when the last eight bits of the masks agree. -/
theorem masked_masked {mask other : BitVec 32} (same : other.truncate 8 = mask.truncate 8)
    (c : UInt8) : masked other (masked mask c) = c := by
  rw [masked_eq, masked_eq, same, UInt8.toBitVec_ofBitVec, BitVec.xor_assoc, BitVec.xor_self,
    BitVec.xor_zero]

/-! ## Groups -/

/-- The characters of whole groups. -/
def groupsText (mask : BitVec 32) : List UInt8 → List UInt8
  | src0 :: src1 :: src2 :: rest => encodeGroup mask src0 src1 src2 ++ groupsText mask rest
  | _ => []

/-- The three bytes of a group are the front of a longer text. -/
theorem exists_group {src : List UInt8} {more : Nat} (long : 3 * (more + 1) ≤ src.length) :
    ∃ src0 src1 src2 rest, src = src0 :: src1 :: src2 :: rest ∧ 3 * more ≤ rest.length := by
  match src, long with
  | src0 :: src1 :: src2 :: rest, long =>
      refine ⟨src0, src1, src2, rest, rfl, ?_⟩
      simp only [List.length_cons] at long
      omega

theorem encodeGroups_eq (mask : BitVec 32) (more : Nat) :
    ∀ {before src : List UInt8}, 3 * more ≤ src.length →
      encodeGroups mask (before ++ src) more before.length =
        some (groupsText mask (src.take (3 * more))) := by
  induction more with
  | zero => intros; rfl
  | succ more ih =>
      intro before src long
      obtain ⟨src0, src1, src2, rest, rfl, others⟩ := exists_group long
      have next := @ih (before ++ [src0, src1, src2]) rest others
      rw [List.append_assoc, List.length_append] at next
      have three : 3 * (more + 1) = 3 * more + 1 + 1 + 1 := by omega
      rw [encodeGroups, three]
      simp only [List.take_succ_cons, groupsText]
      have cell : ∀ place, (before ++ src0 :: src1 :: src2 :: rest)[before.length + place]? =
          (src0 :: src1 :: src2 :: rest)[place]? := by
        intro place
        rw [List.getElem?_append_right (Nat.le_add_right _ _), Nat.add_sub_cancel_left]
      have first := cell 0
      rw [Nat.add_zero] at first
      simp only [first, cell 1, cell 2, List.getElem?_cons_zero, List.getElem?_cons_succ,
        Option.bind_eq_bind, Option.bind_some]
      rw [show encodeGroups mask (before ++ src0 :: src1 :: src2 :: rest) more (before.length + 3) =
        some (groupsText mask (rest.take (3 * more))) from next]
      rfl

theorem length_groupsText (mask : BitVec 32) (more : Nat) :
    ∀ {src : List UInt8}, src.length = 3 * more →
      (groupsText mask src).length = 4 * more := by
  induction more with
  | zero =>
      intro src length
      rw [List.length_eq_zero_iff.mp length]
      rfl
  | succ more ih =>
      intro src length
      obtain ⟨src0, src1, src2, rest, rfl, others⟩ := exists_group length.ge
      have next := @ih rest (by simp only [List.length_cons] at length; omega)
      rw [groupsText, List.length_append, next]
      simp only [encodeGroup, List.length_cons, List.length_nil]
      omega

theorem decodeGroup_eq (mask : BitVec 32) (src0 src1 src2 : UInt8) :
    ∃ char0 char1 char2 char3, encodeGroup mask src0 src1 src2 = [char0, char1, char2, char3] ∧
      toChar (dec char0 <<< 2 ||| (dec char1).sshiftRight 4) = masked mask src0 ∧
      toChar (dec char1 <<< 4 ||| (dec char2).sshiftRight 2) = masked mask src1 ∧
      toChar (dec char2 <<< 6 ||| dec char3) = masked mask src2 := by
  refine ⟨_, _, _, _, rfl, ?_, ?_, ?_⟩
  · rw [toChar, dec_enc, dec_enc, firstChar]
    rfl
  · rw [toChar, dec_enc, dec_enc, secondChar]
    rfl
  · rw [toChar, dec_enc, dec_enc, thirdChar]
    rfl

/-- Decoding as many bytes of the groups as a line has. -/
theorem decodeGroups_eq (mask : BitVec 32) (more : Nat) :
    ∀ {before src after : List UInt8} {n : Nat}, src.length = 3 * more → n ≤ 3 * more →
      3 * more < n + 3 →
      decodeGroups (before ++ groupsText mask src ++ after) more before.length n =
        some ((src.take n).map (masked mask)) := by
  induction more with
  | zero =>
      intro before src after n length most _
      rw [List.length_eq_zero_iff.mp length, List.take_nil]
      rfl
  | succ more ih =>
      intro before src after n length most least
      obtain ⟨src0, src1, src2, rest, rfl, -⟩ := exists_group length.ge
      obtain ⟨char0, char1, char2, char3, encoded, first, second, third⟩ :=
        decodeGroup_eq mask src0 src1 src2
      have shorter : rest.length = 3 * more := by
        simp only [List.length_cons] at length
        omega
      rw [groupsText, encoded]
      have cell : ∀ place, (before ++ ([char0, char1, char2, char3] ++ groupsText mask rest) ++
          after)[before.length + place]? =
            (char0 :: char1 :: char2 :: char3 :: (groupsText mask rest ++ after))[place]? := by
        intro place
        rw [List.append_assoc, List.getElem?_append_right (Nat.le_add_right _ _),
          Nat.add_sub_cancel_left]
        rfl
      have cell0 := cell 0
      rw [Nat.add_zero] at cell0
      rw [decodeGroups]
      simp only [cell0, cell 1, cell 2, cell 3, List.getElem?_cons_zero, List.getElem?_cons_succ,
        Option.bind_eq_bind, Option.bind_some, first, second, third]
      by_cases whole : n ≥ 3
      · have next := @ih (before ++ [char0, char1, char2, char3]) rest after (n - 3) shorter
          (by omega) (by omega)
        rw [List.length_append, List.append_assoc before] at next
        change decodeGroups _ more (before.length + 4) (n - 3) = _ at next
        obtain ⟨fewer, rfl⟩ := Nat.exists_eq_add_of_le' whole
        rw [if_pos whole, next, Option.bind_some]
        rfl
      · rw [if_neg whole]
        have few : n = 1 ∨ n = 2 := by omega
        rcases few with rfl | rfl
        · rfl
        · rfl

/-! ## Lines -/

/-- The characters of whole lines. -/
def linesText (mask : BitVec 32) : Nat → List UInt8 → Nat → List UInt8
  | 0, _, _ => []
  | more + 1, src, iLen =>
      enc (BitVec.ofNat 32 (min 51 iLen)) ::
        groupsText mask (src.take (3 * ((min 51 iLen + 2) / 3))) ++
          linesText mask more (src.drop (3 * ((min 51 iLen + 2) / 3))) (iLen - 51)

/-- The number of bytes that encoding a text reads. -/
def readable (iLen : Nat) : Nat := 3 * ((iLen + 2) / 3)

theorem line_length (iLen : Nat) : (if iLen > 51 then 51 else iLen) = min 51 iLen := by
  split <;> omega

theorem encodeLines_eq (mask : BitVec 32) (more : Nat) :
    ∀ {before src : List UInt8} {iLen : Nat}, more = (iLen + 50) / 51 →
      readable iLen ≤ src.length →
      encodeLines mask (before ++ src) more before.length iLen =
        some (linesText mask more src iLen) := by
  induction more with
  | zero => intros; rfl
  | succ more ih =>
      intro before src iLen count long
      unfold readable at long
      have inside : 3 * ((min 51 iLen + 2) / 3) ≤ src.length := by omega
      have groups := @encodeGroups_eq mask ((min 51 iLen + 2) / 3) before src inside
      have split : before ++ src = before ++ src.take (3 * ((min 51 iLen + 2) / 3)) ++
          src.drop (3 * ((min 51 iLen + 2) / 3)) := by
        rw [List.append_assoc, List.take_append_drop]
      have place : (before ++ src.take (3 * ((min 51 iLen + 2) / 3))).length =
          before.length + 3 * ((min 51 iLen + 2) / 3) := by
        rw [List.length_append, List.length_take_of_le inside]
      have remaining : readable (iLen - 51) ≤
          (src.drop (3 * ((min 51 iLen + 2) / 3))).length := by
        unfold readable
        rw [List.length_drop]
        omega
      have next := @ih (before ++ src.take (3 * ((min 51 iLen + 2) / 3)))
        (src.drop (3 * ((min 51 iLen + 2) / 3))) (iLen - 51) (by omega) remaining
      rw [← split, place] at next
      unfold encodeLines
      simp only [line_length, groups, next, Option.bind_eq_bind, Option.bind_some]
      rfl

/-- The lines are followed by the end of the record. -/
theorem decodeLines_eq (mask : BitVec 32) (more : Nat) :
    ∀ {before src after : List UInt8} {iLen fuel limit : Nat}, more = (iLen + 50) / 51 →
      readable iLen ≤ src.length → more < fuel → iLen < limit →
      decodeLines (before ++ linesText mask more src iLen ++ enc 0 :: after) fuel before.length
          limit =
        some ((src.take iLen).map (masked mask)) := by
  induction more with
  | zero =>
      intro before src after iLen fuel limit count long enough limited
      obtain ⟨fuel, rfl⟩ := Nat.exists_eq_succ_of_ne_zero (by omega : fuel ≠ 0)
      have empty : iLen = 0 := by omega
      have last : (before ++ enc 0 :: after)[before.length]? = some (enc 0) := by
        rw [List.getElem?_append_right (Nat.le_refl _), Nat.sub_self]
        rfl
      rw [empty, linesText, List.append_nil, decodeLines, if_pos (by omega), last]
      rfl
  | succ more ih =>
      intro before src after iLen fuel limit count long enough limited
      obtain ⟨fuel, rfl⟩ := Nat.exists_eq_succ_of_ne_zero (by omega : fuel ≠ 0)
      unfold readable at long
      have inside : 3 * ((min 51 iLen + 2) / 3) ≤ src.length := by omega
      have size : (src.take (3 * ((min 51 iLen + 2) / 3))).length =
          3 * ((min 51 iLen + 2) / 3) := List.length_take_of_le inside
      have remaining : readable (iLen - 51) ≤
          (src.drop (3 * ((min 51 iLen + 2) / 3))).length := by
        unfold readable
        rw [List.length_drop]
        omega
      have whole := List.take_append_drop (3 * ((min 51 iLen + 2) / 3)) src
      rw [linesText]
      generalize src.take (3 * ((min 51 iLen + 2) / 3)) = bytes at size whole ⊢
      generalize src.drop (3 * ((min 51 iLen + 2) / 3)) = others at remaining whole ⊢
      have chars := length_groupsText mask ((min 51 iLen + 2) / 3) size
      have number := @dec_enc_ofNat (min 51 iLen) (Nat.min_le_left _ _)
      generalize enc (BitVec.ofNat 32 (min 51 iLen)) = char at number ⊢
      have arranged : before ++ (char :: groupsText mask bytes ++
            linesText mask more others (iLen - 51)) ++ enc 0 :: after =
          before ++ [char] ++ groupsText mask bytes ++
            (linesText mask more others (iLen - 51) ++ enc 0 :: after) := by
        simp only [List.append_assoc, List.cons_append, List.nil_append]
      have cell : (before ++ [char] ++ groupsText mask bytes ++
          (linesText mask more others (iLen - 51) ++ enc 0 :: after))[before.length]? =
            some char := by
        rw [List.append_assoc, List.append_assoc,
          List.getElem?_append_right (Nat.le_refl _), Nat.sub_self]
        rfl
      have groups := @decodeGroups_eq mask ((min 51 iLen + 2) / 3) (before ++ [char]) bytes
        (linesText mask more others (iLen - 51) ++ enc 0 :: after) (min 51 iLen) size (by omega)
        (by omega)
      have next := @ih (before ++ [char] ++ groupsText mask bytes) others after (iLen - 51) fuel
        (limit - min 51 iLen) (by omega) remaining (by omega) (by omega)
      rw [List.length_append, List.length_singleton] at groups
      rw [List.length_append, List.length_append, List.length_singleton, chars,
        List.append_assoc] at next
      have joined : bytes.take (min 51 iLen) ++ others.take (iLen - 51) = src.take iLen := by
        rw [← whole, List.take_append]
        by_cases full : 51 ≤ iLen
        · have length : bytes.length = 51 := by omega
          have front : bytes.take iLen = bytes := List.take_of_length_le (by omega)
          have line : bytes.take (min 51 iLen) = bytes := List.take_of_length_le (by omega)
          rw [length, front, line]
        · have none : iLen - bytes.length = 0 := by omega
          have last : iLen - 51 = 0 := by omega
          have all : min 51 iLen = iLen := by omega
          rw [none, last, all]
      rw [arranged, decodeLines, if_pos (by omega), cell]
      simp only [Option.bind_eq_bind, Option.bind_some, number, groups]
      rw [if_neg (by omega), next, Option.bind_some, ← List.map_append, joined]

/-! ## Records -/

/-- The two characters of the mask. -/
def maskChars (mask : BitVec 32) : List UInt8 :=
  [enc (mask.sshiftRight 2),
    enc ((mask <<< 4 &&& 0x30) ||| ((mask.sshiftRight 8).sshiftRight 4 &&& 0x0F))]

/-- The record of a text at the front of a buffer. -/
def recordText (t : Int) (src : List UInt8) (iLen : Nat) : List UInt8 :=
  let mask := BitVec.ofInt 32 t &&& 0xFFFF
  let lines := linesText mask ((iLen + 50) / 51) src iLen
  stcnEncodeHead ++ maskChars mask ++ lengthDigits (13 + lines.length + 1) ++ lines ++ [enc 0]

theorem length_lengthDigits (l : Nat) : (lengthDigits l).length = 7 := by
  rw [lengthDigits, List.length_take, List.length_append, List.length_replicate]
  omega

theorem length_recordText (t : Int) (src : List UInt8) (iLen : Nat) :
    (recordText t src iLen).length =
      13 + (linesText (BitVec.ofInt 32 t &&& 0xFFFF) ((iLen + 50) / 51) src iLen).length + 1 := by
  unfold recordText
  simp only [List.length_append, length_lengthDigits]
  rfl

theorem encodeLog_eq {t : Int} {dest src : List UInt8} {iLen : Nat}
    (long : readable iLen ≤ src.length)
    (room : (recordText t src iLen).length < dest.length) :
    encodeLog t dest src iLen =
      some ((recordText t src iLen).length,
        recordText t src iLen ++ 0 :: dest.drop ((recordText t src iLen).length + 1)) := by
  have lines := @encodeLines_eq (BitVec.ofInt 32 t &&& 0xFFFF) ((iLen + 50) / 51) [] src iLen rfl
    long
  have written : write dest 0 (recordText t src iLen ++ [0]) =
      some (recordText t src iLen ++ 0 :: dest.drop ((recordText t src iLen).length + 1)) := by
    rw [write, if_pos (by rw [List.length_append, List.length_singleton]; omega)]
    simp
  unfold encodeLog
  simp only [List.nil_append, List.length_nil] at lines
  simp only [lines, Option.bind_eq_bind, Option.bind_some, ← length_recordText]
  have same : stcnEncodeHead ++ maskChars (BitVec.ofInt 32 t &&& 0xFFFF) ++
      lengthDigits (recordText t src iLen).length ++
        linesText (BitVec.ofInt 32 t &&& 0xFFFF) ((iLen + 50) / 51) src iLen ++ [enc 0, 0] =
      recordText t src iLen ++ [0] := by
    rw [length_recordText]
    simp [recordText]
  unfold maskChars at same
  rw [same, written]
  rfl

theorem length_linesText (mask : BitVec 32) (more : Nat) :
    ∀ {src : List UInt8} {iLen : Nat}, more = (iLen + 50) / 51 → readable iLen ≤ src.length →
      (linesText mask more src iLen).length = more + 4 * ((iLen + 2) / 3) := by
  induction more with
  | zero =>
      intro src iLen count _
      have empty : (iLen + 2) / 3 = 0 := by omega
      rw [linesText, empty]
      rfl
  | succ more ih =>
      intro src iLen count long
      unfold readable at long
      have inside : 3 * ((min 51 iLen + 2) / 3) ≤ src.length := by omega
      have remaining : readable (iLen - 51) ≤
          (src.drop (3 * ((min 51 iLen + 2) / 3))).length := by
        unfold readable
        rw [List.length_drop]
        omega
      have next := @ih (src.drop (3 * ((min 51 iLen + 2) / 3))) (iLen - 51) (by omega) remaining
      rw [linesText, List.length_append, List.length_cons, next,
        length_groupsText mask ((min 51 iLen + 2) / 3) (List.length_take_of_le inside)]
      omega

/-- The mask that a record carries has the last eight bits of the one it was written with. -/
theorem decoded_mask (mask : BitVec 32) :
    (dec (enc (mask.sshiftRight 2)) <<< 2 |||
      (dec (enc ((mask <<< 4 &&& 0x30) |||
        ((mask.sshiftRight 8).sshiftRight 4 &&& 0x0F)))).sshiftRight 4).truncate 8 =
      mask.truncate 8 := by
  rw [dec_enc, dec_enc, firstChar]

theorem ldecodelog_eq {t : Int} {dest src : List UInt8} {iLen : Nat}
    (long : readable iLen ≤ src.length) (room : iLen ≤ dest.length) (more : List UInt8) :
    ldecodelog dest (recordText t src iLen ++ more) (recordText t src iLen).length =
      some (iLen, src.take iLen ++ dest.drop iLen) := by
  have length := length_recordText t src iLen
  have lines := length_linesText (BitVec.ofInt 32 t &&& 0xFFFF) ((iLen + 50) / 51) rfl long
  have iLenLe : iLen ≤ src.length := by
    unfold readable at long
    omega
  have small : readable iLen ≤ src.length := long
  unfold recordText at length ⊢
  generalize BitVec.ofInt 32 t &&& 0xFFFF = mask at length lines ⊢
  dsimp only at length ⊢
  rw [length]
  generalize digits : lengthDigits _ = numbers at length ⊢
  have seven : numbers.length = 7 := digits ▸ length_lengthDigits _
  have arranged : stcnEncodeHead ++ maskChars mask ++ numbers ++
        linesText mask ((iLen + 50) / 51) src iLen ++ [enc 0] ++ more =
      stcnEncodeHead ++ maskChars mask ++ numbers ++
        linesText mask ((iLen + 50) / 51) src iLen ++ enc 0 :: more := by
    rw [List.append_assoc _ [enc 0], List.singleton_append]
  have front : (stcnEncodeHead ++ maskChars mask ++ numbers).length = 13 := by
    rw [List.length_append, seven]
    rfl
  have decoded := @decodeLines_eq mask ((iLen + 50) / 51)
    (stcnEncodeHead ++ maskChars mask ++ numbers) src more iLen
    (13 + (linesText mask ((iLen + 50) / 51) src iLen).length + 1 + 1)
    (13 + (linesText mask ((iLen + 50) / 51) src iLen).length + 1) rfl small (by omega) (by omega)
  rw [arranged]
  rw [front] at decoded
  have headRead : read (stcnEncodeHead ++ maskChars mask ++ numbers ++
      linesText mask ((iLen + 50) / 51) src iLen ++ enc 0 :: more) 0 4 = some stcnEncodeHead := by
    simp only [List.append_assoc]
    exact read_left stcnEncodeHead _
  have cell4 : (stcnEncodeHead ++ maskChars mask ++ numbers ++
      linesText mask ((iLen + 50) / 51) src iLen ++ enc 0 :: more)[4]? =
        some (enc (mask.sshiftRight 2)) := by
    simp only [List.append_assoc]
    rfl
  have cell5 : (stcnEncodeHead ++ maskChars mask ++ numbers ++
      linesText mask ((iLen + 50) / 51) src iLen ++ enc 0 :: more)[5]? =
        some (enc ((mask <<< 4 &&& 0x30) |||
          ((mask.sshiftRight 8).sshiftRight 4 &&& 0x0F))) := by
    simp only [List.append_assoc]
    rfl
  have unmasked : ((src.take iLen).map (masked mask)).map (fun char =>
      toChar (promote char ^^^ (dec (enc (mask.sshiftRight 2)) <<< 2 |||
        (dec (enc ((mask <<< 4 &&& 0x30) |||
          ((mask.sshiftRight 8).sshiftRight 4 &&& 0x0F)))).sshiftRight 4))) = src.take iLen := by
    rw [List.map_map]
    exact List.map_id'' (masked_masked (decoded_mask mask)) _
  have size : (src.take iLen).length = iLen := List.length_take_of_le iLenLe
  have written : write dest 0 (src.take iLen) = some (src.take iLen ++ dest.drop iLen) := by
    rw [write, if_pos (by omega), size]
    simp
  rw [ldecodelog, if_neg (by omega), headRead]
  simp only [Option.bind_eq_bind, Option.bind_some, ne_eq, not_true_eq_false, if_false, cell4,
    cell5, decoded, unmasked, written, List.length_map, size]

theorem lencodelog_eq {enclog : List UInt8} (asked : text enclog = literal "Y") {t : Int}
    {dest src : List UInt8} {iLen : Nat} (long : readable iLen ≤ src.length)
    (room : (recordText t src iLen).length < dest.length) :
    lencodelog (some enclog) t dest src iLen =
      some ((recordText t src iLen).length,
        recordText t src iLen ++ 0 :: dest.drop ((recordText t src iLen).length + 1)) := by
  have same : (some enclog).map text = some (literal "Y") := congrArg some asked
  rw [lencodelog, if_neg (not_not.mpr same), encodeLog_eq long room]

end FrameCode.BasEncrypt
