import FrameCode.BasEncString
import Mathlib.Tactic.IntervalCases

/-!
# Blocks and keys

The rounds of a block are a Feistel network on its two halves, between a permutation of the bits
and its inverse.  Decrypting a block therefore gives back what was encrypted, and encrypting gives
back what was decrypted, for every list of round keys and so for every key.
-/

namespace FrameCode.BasEncString

open FeistelNetwork
open LibHex (promote)

/-! ## Bytes and bits -/

/-- Shifting a bit to the front and masking the others tests it. -/
theorem shiftRight_and_one_ne_zero (bits : BitVec 32) (place : Nat) :
    bits >>> place &&& 1 ≠ 0 ↔ bits.getLsbD place = true := by
  rw [BitVec.getLsbD, Nat.testBit, Nat.and_comm, ← BitVec.toNat_ushiftRight, bne_iff_ne,
    not_iff_not, BitVec.toNat_eq, BitVec.toNat_and]
  rfl

/-- The highest bit comes first. -/
theorem getElem_byteToBit (ch : UInt8) {i : Nat} (small : i < 8) :
    (byteToBit ch)[i] = ch.toBitVec[7 - i] := by
  have low : 7 - i < 8 := by omega
  have wide : 7 - i < 32 := by omega
  have promoted : (promote ch).getLsbD (7 - i) = ch.toBitVec[7 - i] := by
    rw [BitVec.getLsbD_eq_getElem wide, promote, BitVec.getElem_signExtend, dif_pos low]
  rw [byteToBit, Vector.getElem_ofFn, ← promoted, Bool.eq_iff_iff, decide_eq_true_iff]
  apply shiftRight_and_one_ne_zero

theorem byteToBit_injective : Function.Injective byteToBit := by
  intro first second same
  apply UInt8.toBitVec_inj.mp
  ext i small
  have bits := congrArg (fun bits => bits[7 - i]) same
  have place : 7 - (7 - i) = i := by omega
  simpa only [getElem_byteToBit, place] using bits

theorem byteToBit_bitToByte_cells : ∀ b0 b1 b2 b3 b4 b5 b6 b7 : Bool,
    byteToBit (bitToByte #v[b0, b1, b2, b3, b4, b5, b6, b7] 0) =
      #v[b0, b1, b2, b3, b4, b5, b6, b7] := by
  decide +kernel

theorem byteToBit_bitToByte (bit : Vector Bool 8) : byteToBit (bitToByte bit 0) = bit := by
  have cells : bit = #v[bit[0], bit[1], bit[2], bit[3], bit[4], bit[5], bit[6], bit[7]] := by
    ext i small
    interval_cases i <;> rfl
  rw [cells]
  apply byteToBit_bitToByte_cells

theorem bitToByte_byteToBit (ch : UInt8) : bitToByte (byteToBit ch) 0 = ch := by
  apply byteToBit_injective
  apply byteToBit_bitToByte

theorem bit64ToCh8_ch8ToBit64 (ch : Vector UInt8 8) : bit64ToCh8 (ch8ToBit64 ch) = ch := by
  ext i small
  have byte : (Vector.ofFn fun j : Fin 8 => (ch8ToBit64 ch)[8 * i + j.val]) =
      byteToBit ch[i] := by
    ext j inside
    have quotient : (8 * i + j) / 8 = i := by omega
    have remainder : (8 * i + j) % 8 = j := by omega
    simp only [Vector.getElem_ofFn, ch8ToBit64, quotient, remainder]
  simp only [bit64ToCh8, Vector.getElem_ofFn, byte, bitToByte_byteToBit]

theorem ch8ToBit64_bit64ToCh8 (bit : Vector Bool 64) : ch8ToBit64 (bit64ToCh8 bit) = bit := by
  ext i small
  have place : 8 * (i / 8) + i % 8 = i := Nat.div_add_mod i 8
  simp only [ch8ToBit64, bit64ToCh8, Vector.getElem_ofFn, byteToBit_bitToByte, place]

/-! ## The initial permutation -/

theorem desIP_desIP1 (data : Vector Bool 64) : desIP (desIP1 data) = data := by
  ext i small
  have place := tableIP1_tableIP ⟨i, small⟩
  simp only [Fin.getElem_fin] at place
  simp only [desIP, desIP1, Vector.getElem_ofFn, Fin.getElem_fin, place]

theorem desIP1_desIP (data : Vector Bool 64) : desIP1 (desIP data) = data := by
  ext i small
  have place := tableIP_tableIP1 ⟨i, small⟩
  simp only [Fin.getElem_fin] at place
  simp only [desIP, desIP1, Vector.getElem_ofFn, Fin.getElem_fin, place]

/-! ## Rounds on halves -/

def mix (subKey : Vector Bool 48) (right left : Vector Bool 32) : Vector Bool 32 :=
  desXOR left (desP (desSBOX (desXOR (desE right) subKey)))

theorem halves_injective : Function.Injective halves := by
  intro first second same
  ext i small
  have fronts := congrArg Prod.fst same
  have backs := congrArg Prod.snd same
  by_cases front : i < 32
  · have cell := congrArg (fun half : Vector Bool 32 => half[i]) fronts
    simpa only [halves, Vector.getElem_ofFn] using cell
  · have place : i - 32 + 32 = i := by omega
    have cell := congrArg (fun half : Vector Bool 32 => half[i - 32]) backs
    simpa only [halves, Vector.getElem_ofFn, place] using cell

theorem halves_desSwitch (bits : Vector Bool 64) :
    halves (desSwitch bits) = (halves bits).swap := by
  unfold halves desSwitch
  apply Prod.ext
  · ext i small
    have place : (i + 32) % 64 = i + 32 := Nat.mod_eq_of_lt (by omega)
    simp [place]
  · ext i small
    simp

theorem halves_desXOR (bits : Vector Bool 64) (copyRight : Vector Bool 32) :
    halves (desXOR bits copyRight) = (desXOR (halves bits).1 copyRight, (halves bits).2) := by
  unfold halves desXOR
  apply Prod.ext
  · ext i small
    simp
  · ext i small
    simp

theorem halves_desRound (bits : Vector Bool 64) (subKey : Vector Bool 48) :
    halves (desRound bits subKey) = round mix (halves bits) subKey := by
  unfold desRound
  rw [halves_desSwitch, halves_desXOR]
  rfl

theorem halves_foldl_desRound (keys : List (Vector Bool 48)) (bits : Vector Bool 64) :
    halves (keys.foldl desRound bits) = keys.foldl (round mix) (halves bits) := by
  induction keys generalizing bits with
  | nil => rfl
  | cons subKey rest ih => rw [List.foldl_cons, List.foldl_cons, ih, halves_desRound]

theorem desXOR_desXOR {m n : Nat} (right : Vector Bool m) (left : Vector Bool n) :
    desXOR (desXOR right left) left = right := by
  ext i small
  by_cases inside : i < n
  · simp [desXOR, inside]
  · simp [desXOR, inside]

theorem mix_involutive (subKey : Vector Bool 48) (right : Vector Bool 32) :
    Function.Involutive (mix subKey right) := fun left => desXOR_desXOR left _

/-! ## Blocks -/

/-- The sixteen rounds and the last exchange. -/
def desRounds (keys : List (Vector Bool 48)) (bits : Vector Bool 64) : Vector Bool 64 :=
  desSwitch (keys.foldl desRound bits)

theorem halves_desRounds (keys : List (Vector Bool 48)) (bits : Vector Bool 64) :
    halves (desRounds keys bits) = crypt mix keys (halves bits) := by
  rw [desRounds, halves_desSwitch, halves_foldl_desRound]
  rfl

theorem desRounds_reverse (keys : List (Vector Bool 48)) (bits : Vector Bool 64) :
    desRounds keys.reverse (desRounds keys bits) = bits := by
  apply halves_injective
  rw [halves_desRounds, halves_desRounds, crypt_reverse_crypt mix_involutive]

theorem desRounds_desRounds_reverse (keys : List (Vector Bool 48)) (bits : Vector Bool 64) :
    desRounds keys (desRounds keys.reverse bits) = bits := by
  apply halves_injective
  rw [halves_desRounds, halves_desRounds, crypt_crypt_reverse mix_involutive]

theorem desEncryptBlock_eq (plainBlock : Vector UInt8 8) (subKey : Vector (Vector Bool 48) 16) :
    desEncryptBlock plainBlock subKey =
      bit64ToCh8 (desIP1 (desRounds (roundKeys subKey) (desIP (ch8ToBit64 plainBlock)))) := rfl

theorem desDecryptBlock_eq (cipherBlock : Vector UInt8 8) (subKey : Vector (Vector Bool 48) 16) :
    desDecryptBlock cipherBlock subKey =
      bit64ToCh8 (desIP1
        (desRounds (roundKeys subKey).reverse (desIP (ch8ToBit64 cipherBlock)))) := rfl

theorem desDecryptBlock_desEncryptBlock (plainBlock : Vector UInt8 8)
    (subKey : Vector (Vector Bool 48) 16) :
    desDecryptBlock (desEncryptBlock plainBlock subKey) subKey = plainBlock := by
  rw [desEncryptBlock_eq, desDecryptBlock_eq, ch8ToBit64_bit64ToCh8, desIP_desIP1,
    desRounds_reverse, desIP1_desIP, bit64ToCh8_ch8ToBit64]

theorem desEncryptBlock_desDecryptBlock (cipherBlock : Vector UInt8 8)
    (subKey : Vector (Vector Bool 48) 16) :
    desEncryptBlock (desDecryptBlock cipherBlock subKey) subKey = cipherBlock := by
  rw [desDecryptBlock_eq, desEncryptBlock_eq, ch8ToBit64_bit64ToCh8, desIP_desIP1,
    desRounds_desRounds_reverse, desIP1_desIP, bit64ToCh8_ch8ToBit64]

/-- The two functions on a block undo each other, whatever the sixteen subkeys are. -/
theorem desBlock_round_trip (subKey : Vector (Vector Bool 48) 16) (block : Vector UInt8 8) :
    desDecryptBlock (desEncryptBlock block subKey) subKey = block ∧
      desEncryptBlock (desDecryptBlock block subKey) subKey = block :=
  ⟨desDecryptBlock_desEncryptBlock block subKey, desEncryptBlock_desDecryptBlock block subKey⟩

end FrameCode.BasEncString
