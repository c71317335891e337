import FrameCode.CheckedCopy
import FrameCode.CText

/-!
# The conversions of `lib_HEX.c`

Bytes are written as bits by two functions, and numbers are written and read in the bases 2, 8
and 16.  A `char` is signed, and `int` arithmetic wraps.
-/

namespace FrameCode.LibHex

open CText CheckedCopy MachineInt

/-- The value of a `char` in an `int` expression. -/
def promote (byte : UInt8) : BitVec 32 := byte.toBitVec.signExtend 32

/-! ## Bits of bytes -/

/-- What `convert_charto8bit` copies to its second argument. -/
def convertCharto8bit (c : UInt8) : List UInt8 :=
  (List.range 8).map fun i => (if promote c &&& (0x80#32 >>> i) ≠ 0 then 1 else 0) + 0x30

/-- The masks of `Char_To_StrBin`, `iTmp_7` first, and the values that the masked character is
compared with. -/
def masks : List (UInt8 × BitVec 32) :=
  [(128, 128), (64, 64), (32, 32), (16, 16), (8, 8), (4, 4), (2, 2), (1, 1)]

def strBinDigit (srcChar : UInt8) (mask : UInt8 × BitVec 32) : UInt8 :=
  if promote srcChar &&& promote mask.1 = mask.2 then 49 else 48

/-- The `strcpy` calls for the masks, from `out` on. -/
def copyDigits (srcChar : UInt8) :
    List (UInt8 × BitVec 32) → Nat → List UInt8 → Option (List UInt8)
  | [], _, outStrBin => some outStrBin
  | mask :: rest, out, outStrBin => do
      let outStrBin ← write outStrBin out [strBinDigit srcChar mask, 0]
      copyDigits srcChar rest (out + 1) outStrBin

/-- `Char_To_StrBin`, for an address in the buffer; there is none in front of it. -/
def charToStrBin (srcChar : UInt8) (outStrBin : List UInt8) (out : Int) : Option (List UInt8) :=
  if 0 ≤ out then copyDigits srcChar masks out.toNat outStrBin else none

/-- The loop of `MultipleChar_To_StrBin` from index `iFor` on. -/
def strBinLoop (srcChar : List UInt8) : Nat → Nat → List UInt8 → Option (List UInt8)
  | 0, _, outStrBin => some outStrBin
  | more + 1, iFor, outStrBin => do
      let cTmp ← srcChar[iFor]?
      let outStrBin ← charToStrBin cTmp outStrBin (toInt32 (iFor * 8))
      strBinLoop srcChar more (iFor + 1) outStrBin

def multipleCharToStrBin (srcChar outStrBin : List UInt8) (iNumChar : Int) : Option (List UInt8) :=
  strBinLoop srcChar iNumChar.toNat 0 outStrBin

/-! ## Bases -/

/-- One digit of a number that is read in base `iJz`. -/
def readDigit (value : UInt8 → BitVec 32) (iJz iOut : BitVec 32) (cTmp : UInt8) : BitVec 32 :=
  iOut * iJz + value cTmp

def from2JzTo10Jz (s2JzStrIn : List UInt8) : BitVec 32 :=
  (text s2JzStrIn).foldl (readDigit (fun cTmp => promote cTmp - 48) 2) 0

def from8JzTo10Jz (s8JzStrIn : List UInt8) : BitVec 32 :=
  (text s8JzStrIn).foldl (readDigit (fun cTmp => promote cTmp - 48) 8) 0

/-- `iTmp` of `From_16Jz_To_10Jz`. -/
def hexValue (cTmp : UInt8) : BitVec 32 :=
  if 65 ≤ cTmp ∧ cTmp ≤ 70 then promote cTmp - 65 + 10
  else if 97 ≤ cTmp ∧ cTmp ≤ 102 then promote cTmp - 97 + 10
  else promote cTmp - 48

def from16JzTo10Jz (sTmpOut : List UInt8) : BitVec 32 :=
  (text sTmpOut).foldl (readDigit hexValue 16) 0

/-- The digit of `From_10Jz_To_2Jz` for a shift by `iForCount`. -/
def binDigit (iIntTmp : BitVec 32) (iForCount : Nat) : UInt8 :=
  if iIntTmp.sshiftRight iForCount &&& 1 = 0 then 48 else 49

/-- The loop of `From_10Jz_To_2Jz` over the shifts from `32 - more` on. -/
def binLoop (iIntTmp : BitVec 32) : Nat → List UInt8 → Option (List UInt8)
  | 0, sBinTmp => some sBinTmp
  | more + 1, sBinTmp => do
      let iForCount := 32 - (more + 1)
      let sBinTmp ← write sBinTmp (32 - 1 - iForCount) [binDigit iIntTmp iForCount]
      binLoop iIntTmp more sBinTmp

def from10JzTo2Jz (iIntIn : BitVec 32) (sBinOut : List UInt8) : Option (List UInt8) := do
  let sBinTmp ← binLoop iIntIn 32 (List.replicate 33 0)
  write sBinOut 0 (text sBinTmp)

/-- `sBit` with its terminator. -/
def sBit : List UInt8 :=
  [48, 49, 50, 51, 52, 53, 54, 55, 56, 57, 65, 66, 67, 68, 69, 70, 0]

/-- `sBit[index]`. -/
def sBitAt (index : Int) : Option UInt8 := if 0 ≤ index then sBit[index.toNat]? else none

/-- `func_10_Jzzh`, with a bound on the depth of its recursion. -/
def func10Jzzh (iJz : Int) : Nat → List UInt8 → Int → Option (List UInt8)
  | 0, _, _ => none
  | fuel + 1, sTmpOut, i10JzNum =>
      if i10JzNum = 0 then write sTmpOut 0 [0]
      else do
        let sTmpOut ← func10Jzzh iJz fuel sTmpOut (i10JzNum.tdiv iJz)
        let iLen := (text sTmpOut).length
        let digit ← sBitAt (i10JzNum.tmod iJz)
        let sTmpOut ← write sTmpOut iLen [digit]
        write sTmpOut (iLen + 1) [0]

def from10JzTo8Jz (iIntIn : BitVec 32) (s8JzOut : List UInt8) : Option (List UInt8) :=
  func10Jzzh 8 (iIntIn.toInt.natAbs + 1) s8JzOut iIntIn.toInt

def from10JzTo16Jz (iIntIn : BitVec 32) (s16JzOut : List UInt8) : Option (List UInt8) :=
  func10Jzzh 16 (iIntIn.toInt.natAbs + 1) s16JzOut iIntIn.toInt

/-! ## The two encoders -/

/-- The bits of a byte, the most significant first. -/
def bits (byte : UInt8) : List UInt8 :=
  (List.range 8).map fun i => if byte.toBitVec.getMsbD i then 49 else 48

def charDigits (srcChar : UInt8) : List UInt8 := masks.map (strBinDigit srcChar)

/-- `MultipleChar_To_StrBin` writes what `convert_charto8bit` writes for each byte: its bits. -/
structure Agrees (srcChar outStrBin : List UInt8) : Prop where
  converted : ∃ after, multipleCharToStrBin srcChar outStrBin srcChar.length = some after ∧
    after.take (8 * srcChar.length) = srcChar.flatMap convertCharto8bit
  bits : srcChar.flatMap convertCharto8bit = srcChar.flatMap bits

section Encoders

variable {before old rest : List UInt8} {srcChar : UInt8}

theorem forall_byte {P : UInt8 → Prop} (all : ∀ n : Fin 256, P (UInt8.ofFin n)) (byte : UInt8) :
    P byte := by
  have here := all byte.toFin
  exact here

theorem convertCharto8bit_eq (byte : UInt8) : convertCharto8bit byte = bits byte := by
  revert byte
  apply forall_byte
  decide +kernel

/-- The mask of the sign bit is never the value it is compared with. -/
theorem charDigits_eq_iff (byte : UInt8) :
    charDigits byte = convertCharto8bit byte ↔ byte < 128 := by
  revert byte
  apply forall_byte
  decide +kernel

theorem length_charDigits (byte : UInt8) : (charDigits byte).length = 8 := rfl

/-- Each digit writes over the terminator of the one before. -/
theorem copyDigits_eq (list : List (UInt8 × BitVec 32)) {out : Nat} (here : out = before.length)
    (room : old.length = list.length + 1) :
    ∃ cell, copyDigits srcChar list out (before ++ old ++ rest) =
      some (before ++ list.map (strBinDigit srcChar) ++ cell :: rest) := by
  induction list generalizing before old out with
  | nil =>
      obtain ⟨cell, rfl⟩ := List.length_eq_one_iff.mp room
      exact ⟨cell, by simp [copyDigits]⟩
  | cons mask list ih =>
      match old, room with
      | first :: second :: old, room =>
          have written := @write_at _ before [first, second] [strBinDigit srcChar mask, 0]
            (old ++ rest) out here rfl
          have length : out + 1 = (before ++ [strBinDigit srcChar mask]).length := by
            rw [here, List.length_append]
            rfl
          obtain ⟨cell, copied⟩ := @ih (before ++ [strBinDigit srcChar mask]) (0 :: old) (out + 1)
            length (by simpa using room)
          refine ⟨cell, ?_⟩
          rw [copyDigits]
          simp only [List.append_assoc, List.cons_append, List.nil_append, bind, Option.bind]
            at written copied ⊢
          rw [written]
          simp only [copied, List.map_cons, List.cons_append]

theorem charToStrBin_eq (room : old.length = 9) {out : Int} (here : out = before.length) :
    ∃ cell, charToStrBin srcChar (before ++ old ++ rest) out =
      some (before ++ charDigits srcChar ++ cell :: rest) := by
  rw [charToStrBin, if_pos (by omega)]
  exact copyDigits_eq masks (by omega) room

theorem exists_prefix {α : Type} {list : List α} {count : Nat} (long : count ≤ list.length) :
    ∃ first rest, list = first ++ rest ∧ first.length = count :=
  ⟨list.take count, list.drop count, (List.take_append_drop _ _).symm,
    List.length_take_of_le long⟩

theorem offset_eq {count : Nat} (small : count ≤ 268435456) (iFor : Nat) (inside : iFor < count) :
    toInt32 (iFor * 8) = ((iFor * 8 : Nat) : Int) := by
  rw [toInt32_eq (by omega) (by omega)]
  omega

/-- The characters still to be converted write over the terminator behind those before. -/
theorem strBinLoop_eq {before spare rest done todo : List UInt8}
    (place : before.length = done.length * 8) (room : spare.length = todo.length * 8 + 1)
    (wide : ∀ iFor : Nat, iFor < done.length + todo.length →
      toInt32 (iFor * 8) = ((iFor * 8 : Nat) : Int)) :
    ∃ last, strBinLoop (done ++ todo) todo.length done.length (before ++ spare ++ rest) =
      some (before ++ todo.flatMap charDigits ++ last :: rest) := by
  induction todo generalizing before spare done with
  | nil =>
      obtain ⟨last, rfl⟩ := List.length_eq_one_iff.mp room
      exact ⟨last, by simp [strBinLoop]⟩
  | cons srcChar todo ih =>
      rw [List.length_cons] at room wide
      obtain ⟨old, more, rfl, nine⟩ := exists_prefix (show 9 ≤ spare.length by omega)
      rw [List.length_append] at room
      have found : (done ++ srcChar :: todo)[done.length]? = some srcChar := by simp
      have offset : toInt32 (done.length * 8) = before.length := by
        rw [wide _ (by omega), place]
      obtain ⟨cell, written⟩ := @charToStrBin_eq before old (more ++ rest) srcChar nine _ rfl
      have moved : (before ++ charDigits srcChar).length = (done ++ [srcChar]).length * 8 := by
        rw [List.length_append, length_charDigits, place, List.length_append,
          List.length_singleton]
        omega
      have left : (cell :: more).length = todo.length * 8 + 1 := by
        rw [List.length_cons]
        omega
      have counted : done.length + (todo.length + 1) =
          (done ++ [srcChar]).length + todo.length := by
        rw [List.length_append, List.length_singleton]
        omega
      obtain ⟨last, later⟩ := ih moved left (counted ▸ wide)
      have whole : before ++ (old ++ more) ++ rest = before ++ old ++ (more ++ rest) := by
        simp only [List.append_assoc]
      have round : strBinLoop (done ++ srcChar :: todo) (todo.length + 1) done.length
          (before ++ (old ++ more) ++ rest) =
          strBinLoop (done ++ srcChar :: todo) todo.length (done.length + 1)
            (before ++ charDigits srcChar ++ cell :: (more ++ rest)) := by
        simp only [strBinLoop, found, offset, whole, written, Option.bind_eq_bind,
          Option.bind_some]
      refine ⟨last, round.trans ?_⟩
      simpa using later

/-- The loop multiplies its index by 8 in an `int`. -/
theorem offset_of_strBinLoop {srcChar outStrBin after : List UInt8} {more iFor : Nat}
    (ended : strBinLoop srcChar more iFor outStrBin = some after) (j : Nat) (inside : j < more) :
    0 ≤ toInt32 ((iFor + j : Nat) * 8) := by
  induction more generalizing iFor outStrBin j with
  | zero => cases inside
  | succ more ih =>
      simp only [strBinLoop, Option.bind_eq_bind, Option.bind_eq_some_iff] at ended
      obtain ⟨cTmp, -, block, converted, later⟩ := ended
      cases j with
      | zero =>
          rw [charToStrBin] at converted
          split at converted
          · assumption
          · cases converted
      | succ j =>
          rw [Nat.add_comm j, ← Nat.add_assoc]
          exact ih later j (Nat.lt_of_succ_lt_succ inside)

end Encoders

/-- The encoders agree exactly on ASCII characters whose bits an `int` can count. -/
theorem encoders_agree_iff {srcChar outStrBin : List UInt8}
    (room : 8 * srcChar.length + 1 ≤ outStrBin.length) :
    Agrees srcChar outStrBin ↔
      (∀ byte ∈ srcChar, byte < 128) ∧ srcChar.length ≤ 268435456 := by
  have run (small : srcChar.length ≤ 268435456) :
      ∃ after, multipleCharToStrBin srcChar outStrBin srcChar.length = some after ∧
        after.take (8 * srcChar.length) = srcChar.flatMap charDigits := by
    obtain ⟨spare, rest, rfl, length⟩ := exists_prefix room
    obtain ⟨last, ran⟩ := @strBinLoop_eq [] spare rest [] srcChar rfl (by omega)
      (offset_eq (by simpa))
    refine ⟨_, ran, List.take_left' ?_⟩
    rw [List.nil_append, List.length_flatMap,
      List.map_congr_left fun byte _ => length_charDigits byte]
    simp [Nat.mul_comm]
  have same : srcChar.flatMap charDigits = srcChar.flatMap convertCharto8bit ↔
      ∀ byte ∈ srcChar, byte < 128 := by
    have lengths : ∀ byte ∈ srcChar, (convertCharto8bit byte).length ≤ (charDigits byte).length :=
      fun byte _ => Nat.le_refl 8
    rw [flatMap_eq_flatMap_iff lengths]
    simp only [charDigits_eq_iff]
  constructor
  · rintro ⟨⟨after, ended, taken⟩, -⟩
    have small : srcChar.length ≤ 268435456 := by
      by_contra large
      have offset := offset_of_strBinLoop ended 268435456 (by omega)
      revert offset
      decide
    obtain ⟨after', ended', taken'⟩ := run small
    cases ended.symm.trans ended'
    exact ⟨same.mp (taken'.symm.trans taken), small⟩
  · rintro ⟨ascii, small⟩
    obtain ⟨after, ended, taken⟩ := run small
    refine ⟨⟨after, ended, taken.trans (same.mpr ascii)⟩, ?_⟩
    rw [funext convertCharto8bit_eq]

/-- The letters `ab`. -/
theorem agrees_letters : Agrees [97, 98] (List.replicate 17 0) := by
  rw [encoders_agree_iff (by decide)]
  exact ⟨by simp, by simp⟩

/-- A byte with the sign bit. -/
theorem not_agrees_sign : ¬ Agrees [128] (List.replicate 9 0) := by
  rintro ⟨⟨after, ended, taken⟩, -⟩
  have ran : multipleCharToStrBin [128] (List.replicate 9 0) 1 =
      some [48, 48, 48, 48, 48, 48, 48, 48, 0] := by
    decide
  cases ended.symm.trans ran
  revert taken
  decide

/-! ## Round trips -/

/-- Digits that are read with their values, the most significant first. -/
theorem foldl_readDigit {value : UInt8 → BitVec 32} {digit : Nat → UInt8} (iJz : Nat)
    {digits : List Nat} (reads : ∀ d ∈ digits, value (digit d) = BitVec.ofNat 32 d) :
    (digits.reverse.map digit).foldl (readDigit value (BitVec.ofNat 32 iJz)) 0 =
      BitVec.ofNat 32 (Nat.ofDigits iJz digits) := by
  induction digits with
  | nil => rfl
  | cons d digits ih =>
      rw [List.forall_mem_cons] at reads
      rw [List.reverse_cons, List.map_append, List.foldl_append, ih reads.2, List.map_singleton,
        List.foldl_cons, List.foldl_nil, readDigit, reads.1, Nat.ofDigits_cons, Nat.add_comm,
        BitVec.ofNat_add, Nat.mul_comm, BitVec.ofNat_mul]

section Binary

variable {n : BitVec 32}

/-- The digits that are shifted in at the sign are masked out. -/
theorem binDigit_eq {k : Nat} (inside : k < 32) :
    binDigit n k = if n.toNat / 2 ^ k % 2 = 0 then 48 else 49 := by
  have bit : (n.sshiftRight k &&& 1#32) = 0#32 ↔ n.toNat / 2 ^ k % 2 = 0 := by
    rw [BitVec.and_one_eq_setWidth_ofBool_getLsbD, BitVec.getLsbD_sshiftRight, Nat.add_zero,
      if_pos inside, BitVec.getLsbD, Nat.testBit_eq_decide_div_mod_eq]
    rcases Nat.mod_two_eq_zero_or_one (n.toNat / 2 ^ k) with zero | one
    · simp [zero]
    · simp [one]
  exact if_congr bit rfl rfl

theorem binLoop_eq (more : Nat) (few : more ≤ 32) (tail : List UInt8) :
    binLoop n more (List.replicate more 0 ++ tail) =
      some (((List.range' (32 - more) more).map (binDigit n)).reverse ++ tail) := by
  induction more generalizing tail with
  | zero => rfl
  | succ more ih =>
      have place : 32 - 1 - (32 - (more + 1)) = (List.replicate more (0 : UInt8)).length := by
        rw [List.length_replicate]
        omega
      have next : 32 - (more + 1) + 1 = 32 - more := by omega
      have written : write (List.replicate (more + 1) 0 ++ tail) (32 - 1 - (32 - (more + 1)))
          [binDigit n (32 - (more + 1))] =
          some (List.replicate more 0 ++ (binDigit n (32 - (more + 1)) :: tail)) := by
        rw [List.replicate_succ', @write_at _ _ [0] [binDigit n (32 - (more + 1))] tail _ place rfl,
          List.append_assoc]
        rfl
      simp only [binLoop, written, Option.bind_eq_bind, Option.bind_some]
      rw [ih (Nat.le_of_succ_le few), List.range'_succ, next]
      simp

theorem ofDigits_bits (n count : Nat) :
    Nat.ofDigits 2 ((List.range count).map fun k => n / 2 ^ k % 2) = n % 2 ^ count := by
  induction count with
  | zero => simp [Nat.mod_one]
  | succ count ih =>
      rw [List.range_succ, List.map_append, Nat.ofDigits_append, ih, Nat.mod_pow_succ,
        List.length_map, List.length_range, List.map_singleton, Nat.ofDigits_singleton]

/-- The digits of a number of 32 bits. -/
def binary (n : BitVec 32) : List UInt8 :=
  ((List.range 32).map fun k => n.toNat / 2 ^ k % 2).reverse.map fun d => if d = 0 then 48 else 49

theorem length_binary : (binary n).length = 32 := by
  simp [binary]

theorem zero_notMem_binary : 0 ∉ binary n := by
  intro found
  obtain ⟨d, -, zero⟩ := List.mem_map.mp found
  split at zero
  · exact absurd zero (by decide)
  · exact absurd zero (by decide)

theorem from10JzTo2Jz_eq {sBinOut : List UInt8} (room : 32 ≤ sBinOut.length) :
    from10JzTo2Jz n sBinOut = some (binary n ++ sBinOut.drop 32) := by
  have digits : ((List.range' 0 32).map (binDigit n)).reverse = binary n := by
    rw [binary, ← List.map_reverse, ← List.map_reverse, List.map_map, ← List.range_eq_range']
    apply List.map_congr_left
    intro k member
    rw [List.mem_reverse, List.mem_range] at member
    exact binDigit_eq member
  have loop := @binLoop_eq n 32 (Nat.le_refl 32) [0]
  rw [show List.replicate 32 0 ++ [0] = List.replicate 33 (0 : UInt8) from
    List.replicate_succ'.symm, Nat.sub_self, digits] at loop
  have cleared : text (binary n ++ [0]) = binary n :=
    text_append_nul (fun byte member zero => zero_notMem_binary (zero ▸ member)) []
  rw [from10JzTo2Jz, loop, Option.bind_eq_bind, Option.bind_some, cleared, write, length_binary,
    if_pos (by omega), List.take_zero, List.nil_append, Nat.zero_add]

theorem from2JzTo10Jz_binary (rest : List UInt8) : from2JzTo10Jz (binary n ++ 0 :: rest) = n := by
  have reads : ∀ d ∈ (List.range 32).map fun k => n.toNat / 2 ^ k % 2,
      promote (if d = 0 then 48 else 49) - 48 = BitVec.ofNat 32 d := by
    intro d member
    obtain ⟨k, -, rfl⟩ := List.mem_map.mp member
    rcases Nat.mod_two_eq_zero_or_one (n.toNat / 2 ^ k) with zero | one
    · rw [zero]
      decide
    · rw [one]
      decide
  rw [from2JzTo10Jz,
    text_append_nul fun byte member zero => zero_notMem_binary (zero ▸ member)]
  calc
    _ = BitVec.ofNat 32 (Nat.ofDigits 2 ((List.range 32).map fun k => n.toNat / 2 ^ k % 2)) :=
      foldl_readDigit 2 reads
    _ = n := by
      rw [ofDigits_bits, Nat.mod_eq_of_lt n.isLt, BitVec.ofNat_toNat, BitVec.setWidth_eq]

end Binary

section Recursion

variable {iJz : Nat}

def sBitDigit (d : Nat) : UInt8 := sBit.getD d 0

/-- The digits of a number in base `iJz`; zero has none. -/
def numeral (iJz n : Nat) : List UInt8 := (Nat.digits iJz n).reverse.map sBitDigit

theorem length_numeral (n : Nat) : (numeral iJz n).length = (Nat.digits iJz n).length := by
  rw [numeral, List.length_map, List.length_reverse]

theorem sBitAt_eq {d : Nat} (small : d < 16) : sBitAt d = some (sBitDigit d) := by
  have found : d < sBit.length := Nat.lt_succ_of_lt small
  rw [sBitAt, if_pos (Int.natCast_nonneg d), Int.toNat_natCast, sBitDigit,
    List.getD_eq_getElem?_getD, List.getElem?_eq_getElem found, Option.getD_some]

theorem sBitDigit_ne_zero {d : Nat} (small : d < 16) : sBitDigit d ≠ 0 := by
  have all : ∀ d : Fin 16, sBitDigit d ≠ 0 := by decide
  exact all ⟨d, small⟩

theorem zero_notMem_numeral (base : 1 < iJz) (known : iJz ≤ 16) (n : Nat) : 0 ∉ numeral iJz n := by
  intro found
  obtain ⟨d, member, zero⟩ := List.mem_map.mp found
  have small := Nat.digits_lt_base base (List.mem_reverse.mp member)
  exact sBitDigit_ne_zero (by omega) zero

theorem text_numeral (base : 1 < iJz) (known : iJz ≤ 16) (n : Nat) (rest : List UInt8) :
    text (numeral iJz n ++ 0 :: rest) = numeral iJz n :=
  text_append_nul (fun _ member zero => zero_notMem_numeral base known n (zero ▸ member)) rest

/-- The recursion writes the digits in front of the last one first. -/
theorem func10Jzzh_eq (base : 1 < iJz) (known : iJz ≤ 16) {fuel n : Nat} (enough : n < fuel)
    {sTmpOut : List UInt8} (room : (numeral iJz n).length + 1 ≤ sTmpOut.length) :
    func10Jzzh iJz fuel sTmpOut n =
      some (numeral iJz n ++ 0 :: sTmpOut.drop ((numeral iJz n).length + 1)) := by
  induction fuel generalizing n sTmpOut with
  | zero => cases enough
  | succ fuel ih =>
      rw [func10Jzzh]
      by_cases zero : n = 0
      · subst zero
        have short : 0 + [(0 : UInt8)].length ≤ sTmpOut.length := by simpa [numeral] using room
        rw [Nat.cast_zero, if_pos rfl, write, if_pos short]
        simp [numeral]
      · have positive : 0 < n := Nat.pos_of_ne_zero zero
        have less : n / iJz < n := Nat.div_lt_self positive base
        have digits : numeral iJz n = numeral iJz (n / iJz) ++ [sBitDigit (n % iJz)] := by
          rw [numeral, Nat.digits_def' base positive, List.reverse_cons, List.map_append]
          rfl
        have length : (numeral iJz n).length = (numeral iJz (n / iJz)).length + 1 := by
          rw [digits, List.length_append, List.length_singleton]
        have digit : n % iJz < 16 := (Nat.mod_lt n (by omega)).trans_le known
        obtain ⟨first, rest, rfl, place⟩ := exists_prefix
          (show (numeral iJz (n / iJz)).length + 1 ≤ sTmpOut.length by omega)
        have inner := @ih (n / iJz) (by omega) (first ++ rest) (by rw [List.length_append]; omega)
        rw [List.drop_left' place] at inner
        rw [List.length_append] at room
        obtain ⟨old, rest, rfl⟩ := List.exists_cons_of_ne_nil
          (show rest ≠ [] by rintro rfl; rw [List.length_nil] at room; omega)
        have lastDigit := @write_at _ (numeral iJz (n / iJz)) [0] [sBitDigit (n % iJz)]
          (old :: rest) _ rfl rfl
        have behind := @write_at _ (numeral iJz n) [old] [0] rest
          ((numeral iJz (n / iJz)).length + 1) length.symm rfl
        have last : (first ++ old :: rest).drop ((numeral iJz n).length + 1) = rest := by
          have split : first ++ old :: rest = (first ++ [old]) ++ rest := by simp
          rw [split, List.drop_left' (by rw [List.length_append, List.length_singleton]; omega)]
        have nonzero : (n : Int) ≠ 0 := by omega
        rw [if_neg nonzero, ← Int.ofNat_tdiv, ← Int.ofNat_tmod, inner, sBitAt_eq digit, last]
        simp only [List.append_assoc, List.cons_append, List.nil_append] at lastDigit behind
        simp only [Option.bind_eq_bind, Option.bind_some, text_numeral base known, lastDigit]
        rw [digits] at behind ⊢
        simpa using behind

/-- What is written for a number is read back. -/
theorem foldl_numeral {value : UInt8 → BitVec 32} (base : 1 < iJz)
    (reads : ∀ d < iJz, value (sBitDigit d) = BitVec.ofNat 32 d) (n : Nat) :
    (numeral iJz n).foldl (readDigit value (BitVec.ofNat 32 iJz)) 0 = BitVec.ofNat 32 n := by
  rw [numeral, foldl_readDigit iJz fun d member => reads d (Nat.digits_lt_base base member),
    Nat.ofDigits_digits]

theorem head?_numeral (base : 1 < iJz) (known : iJz ≤ 16) (n : Nat) :
    (numeral iJz n).head? ≠ some 48 := by
  have digit (d : Fin 16) (zero : sBitDigit d = 48) : d = 0 := by
    revert d
    decide
  intro leading
  rw [numeral, List.head?_map, List.head?_reverse] at leading
  obtain ⟨d, last, zero⟩ := Option.map_eq_some_iff.mp leading
  have nonempty : Nat.digits iJz n ≠ [] := by
    rintro empty
    rw [empty] at last
    cases last
  rw [List.getLast?_eq_some_getLast nonempty, Option.some.injEq] at last
  have small : d < 16 := by
    have member := List.getLast_mem nonempty
    rw [last] at member
    exact (Nat.digits_lt_base base member).trans_le known
  have zeroDigit := congrArg Fin.val (digit ⟨d, small⟩ zero)
  exact Nat.getLast_digit_ne_zero iJz (Nat.digits_ne_nil_iff_ne_zero.mp nonempty)
    (last.trans zeroDigit)

/-- Numbers below `2 ^ 31` have at most as many digits as that. -/
theorem length_numeral_le (base : 1 < iJz) {n width : Nat} (small : n < iJz ^ width) :
    (numeral iJz n).length ≤ width := by
  rw [length_numeral]
  exact (Nat.digits_length_le_iff base n).mpr small

end Recursion

/-- The conversion writes a string without a leading zero from which the number is read back. -/
def RoundTrips (convert : BitVec 32 → List UInt8 → Option (List UInt8))
    (parse : List UInt8 → BitVec 32) (n : BitVec 32) (out : List UInt8) : Prop :=
  ∃ after, convert n out = some after ∧ 0 ∈ after ∧ parse after = n ∧
    (text after).head? ≠ some 48

section RoundTrips

variable {n : BitVec 32}

theorem roundTrips_of_numeral {convert : BitVec 32 → List UInt8 → Option (List UInt8)}
    {value : UInt8 → BitVec 32} {iJz : Nat} {out : List UInt8} (base : 1 < iJz) (known : iJz ≤ 16)
    (converts : convert n out = func10Jzzh iJz (n.toInt.natAbs + 1) out n.toInt)
    (reads : ∀ d < iJz, value (sBitDigit d) = BitVec.ofNat 32 d) (nonnegative : 0 ≤ n.toInt)
    (room : (numeral iJz n.toNat).length + 1 ≤ out.length) :
    RoundTrips convert (fun after => (text after).foldl (readDigit value (BitVec.ofNat 32 iJz)) 0)
      n out := by
  have number : n.toInt = n.toNat := by
    have whole := BitVec.toInt_eq_toNat_cond n
    have bound := n.isLt
    split at whole
    · exact whole
    · omega
  rw [number, Int.natAbs_natCast, func10Jzzh_eq base known (Nat.lt_succ_self _) room] at converts
  refine ⟨_, converts, by simp, ?_, ?_⟩
  · change (text _).foldl _ 0 = n
    rw [text_numeral base known, foldl_numeral base reads, BitVec.ofNat_toNat, BitVec.setWidth_eq]
  · rw [text_numeral base known]
    exact head?_numeral base known _

theorem toNat_lt_of_nonneg (nonnegative : 0 ≤ n.toInt) : n.toNat < 2147483648 := by
  have whole := BitVec.toInt_eq_toNat_cond n
  split at whole <;> omega

theorem sBitDigit_octal (d : Nat) (small : d < 8) :
    promote (sBitDigit d) - 48 = BitVec.ofNat 32 d := by
  have all : ∀ d : Fin 8, promote (sBitDigit d) - 48 = BitVec.ofNat 32 d := by decide
  exact all ⟨d, small⟩

theorem sBitDigit_hex (d : Nat) (small : d < 16) : hexValue (sBitDigit d) = BitVec.ofNat 32 d := by
  have all : ∀ d : Fin 16, hexValue (sBitDigit d) = BitVec.ofNat 32 d := by decide
  exact all ⟨d, small⟩

end RoundTrips

/-- Every number is read back from its 32 bits, and a number that is not negative from its digits
in the bases 8 and 16. -/
theorem conversions_round_trip (n : BitVec 32) {s2Jz s8Jz s16Jz : List UInt8}
    (room2 : 33 ≤ s2Jz.length) (room8 : 12 ≤ s8Jz.length) (room16 : 9 ≤ s16Jz.length) :
    (∃ digits, from10JzTo2Jz n s2Jz = some digits ∧ ∃ terminated,
      write digits 32 [0] = some terminated ∧ (text terminated).length = 32 ∧
        from2JzTo10Jz terminated = n) ∧
    (0 ≤ n.toInt → RoundTrips from10JzTo8Jz from8JzTo10Jz n s8Jz) ∧
    (0 ≤ n.toInt → RoundTrips from10JzTo16Jz from16JzTo10Jz n s16Jz) := by
  refine ⟨?_, ?_, ?_⟩
  · obtain ⟨first, rest, rfl, place⟩ := exists_prefix (show 32 ≤ s2Jz.length by omega)
    obtain ⟨old, rest, rfl⟩ := List.exists_cons_of_ne_nil
      (show rest ≠ [] by rintro rfl; simp at room2; omega)
    have written := @write_at _ (binary n) [old] [0] rest 32 length_binary.symm rfl
    rw [List.append_assoc, List.append_assoc] at written
    have cleared : text (binary n ++ 0 :: rest) = binary n :=
      text_append_nul (fun _ member zero => zero_notMem_binary (zero ▸ member)) rest
    refine ⟨_, from10JzTo2Jz_eq (by omega), _, ?_, ?_, from2JzTo10Jz_binary rest⟩
    · rw [List.drop_left' place]
      exact written
    · rw [cleared, length_binary]
  · intro nonnegative
    have small := @length_numeral_le 8 (by decide) n.toNat 11
      ((toNat_lt_of_nonneg nonnegative).trans (by decide))
    exact @roundTrips_of_numeral n _ _ 8 _ (by decide) (by decide) rfl sBitDigit_octal nonnegative
      (by omega)
  · intro nonnegative
    have small := @length_numeral_le 16 (by decide) n.toNat 8
      ((toNat_lt_of_nonneg nonnegative).trans (by decide))
    exact @roundTrips_of_numeral n _ _ 16 _ (by decide) (by decide) rfl sBitDigit_hex nonnegative
      (by omega)

/-- The number 255. -/
theorem conversions_round_trip_byte :
    RoundTrips from10JzTo16Jz from16JzTo10Jz 255 (List.replicate 9 1) :=
  (conversions_round_trip 255 (@List.length_replicate _ 33 0).ge
    (@List.length_replicate _ 12 0).ge (@List.length_replicate _ 9 1).ge).2.2 (by decide)

end FrameCode.LibHex
