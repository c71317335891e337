import FrameCode.BasEncStringTexts

/-!
# Complemented keys

The tables of the key schedule and of the rounds only choose bits, and a round key meets the bits
of a block in an exclusive or.  Complementing every bit of the key and of a block therefore leaves
the input of the boxes alone, and complements the result.
-/

namespace FrameCode.BasEncString

open FeistelNetwork CText

/-! ## Bits -/

/-- Every bit changed. -/
def flip {n : Nat} (bits : Vector Bool n) : Vector Bool n := bits.map not

/-- Every bit of every byte changed. -/
def complement (block : Vector UInt8 8) : Vector UInt8 8 := block.map fun byte => ~~~byte

theorem byteToBit_complement (ch : UInt8) : byteToBit (~~~ch) = flip (byteToBit ch) := by
  ext i small
  rw [flip, Vector.getElem_map, getElem_byteToBit, getElem_byteToBit, UInt8.toBitVec_not,
    BitVec.getElem_not]

theorem ch8ToBit64_complement (ch : Vector UInt8 8) :
    ch8ToBit64 (complement ch) = flip (ch8ToBit64 ch) := by
  ext i small
  simp [ch8ToBit64, complement, flip, byteToBit_complement]

theorem bit64ToCh8_flip (bit : Vector Bool 64) :
    bit64ToCh8 (flip bit) = complement (bit64ToCh8 bit) := by
  have bits : ch8ToBit64 (complement (bit64ToCh8 bit)) = flip bit := by
    rw [ch8ToBit64_complement, ch8ToBit64_bit64ToCh8]
  rw [← bits, bit64ToCh8_ch8ToBit64]

theorem desIP_flip (data : Vector Bool 64) : desIP (flip data) = flip (desIP data) := by
  ext i small
  simp [desIP, flip]

theorem desIP1_flip (data : Vector Bool 64) : desIP1 (flip data) = flip (desIP1 data) := by
  ext i small
  simp [desIP1, flip]

/-! ## Rounds -/

theorem halves_flip (bits : Vector Bool 64) :
    halves (flip bits) = Prod.map flip flip (halves bits) := by
  apply Prod.ext
  · ext i small
    simp [halves, flip]
  · ext i small
    simp [halves, flip]

theorem desXOR_flip_left {m n : Nat} (right : Vector Bool m) (left : Vector Bool n) :
    desXOR (flip right) left = flip (desXOR right left) := by
  ext i small
  by_cases inside : i < n
  · simp [desXOR, flip, inside]
  · simp [desXOR, flip, inside]

/-- The input of the boxes. -/
theorem desXOR_desE_flip (right : Vector Bool 32) (subKey : Vector Bool 48) :
    desXOR (desE (flip right)) (flip subKey) = desXOR (desE right) subKey := by
  ext i small
  simp [desXOR, desE, flip]

theorem mix_flip (subKey : Vector Bool 48) (right left : Vector Bool 32) :
    mix (flip subKey) (flip right) (flip left) = flip (mix subKey right left) := by
  unfold mix
  rw [desXOR_desE_flip, desXOR_flip_left]

theorem desRounds_flip (keys : List (Vector Bool 48)) (bits : Vector Bool 64) :
    desRounds (keys.map flip) (flip bits) = flip (desRounds keys bits) := by
  apply halves_injective
  rw [halves_desRounds, halves_flip, crypt_map mix_flip, halves_flip, halves_desRounds]

/-! ## Keys -/

theorem desROL_flip (data : Vector Bool 56) (count : Nat) :
    desROL (flip data) count = flip (desROL data count) := by
  unfold desROL
  split
  · ext i small
    simp only [Vector.getElem_ofFn, flip, Vector.getElem_map]
    split
    · rfl
    · split
      · rfl
      · split <;> rfl
  · rfl

theorem foldl_desROL_flip (counts : List Nat) (data : Vector Bool 56) :
    counts.foldl desROL (flip data) = flip (counts.foldl desROL data) := by
  induction counts generalizing data with
  | nil => rfl
  | cons count rest ih => rw [List.foldl_cons, List.foldl_cons, desROL_flip, ih]

theorem desPC1_flip (key : Vector Bool 64) : desPC1 (flip key) = flip (desPC1 key) := by
  ext i small
  simp [desPC1, flip]

theorem desPC2_flip (key : Vector Bool 56) : desPC2 (flip key) = flip (desPC2 key) := by
  ext i small
  simp [desPC2, flip]

theorem desSubKey_flip (key : Vector Bool 64) :
    desSubKey (flip key) = (desSubKey key).map flip := by
  ext1 i small
  simp only [desSubKey, Vector.getElem_ofFn, Vector.getElem_map, desPC1_flip, foldl_desROL_flip,
    desPC2_flip]

theorem roundKeys_map (subKey : Vector (Vector Bool 48) 16) :
    roundKeys (subKey.map flip) = (roundKeys subKey).map flip := by
  unfold roundKeys
  rw [List.map_map]
  apply List.map_congr_left
  intro i _
  simp

/-! ## Blocks -/

theorem desEncryptBlock_complement (plainBlock : Vector UInt8 8)
    (subKey : Vector (Vector Bool 48) 16) :
    desEncryptBlock (complement plainBlock) (subKey.map flip) =
      complement (desEncryptBlock plainBlock subKey) := by
  rw [desEncryptBlock_eq, desEncryptBlock_eq, ch8ToBit64_complement, desIP_flip, roundKeys_map,
    desRounds_flip, desIP1_flip, bit64ToCh8_flip]

theorem desDecryptBlock_complement (cipherBlock : Vector UInt8 8)
    (subKey : Vector (Vector Bool 48) 16) :
    desDecryptBlock (complement cipherBlock) (subKey.map flip) =
      complement (desDecryptBlock cipherBlock subKey) := by
  rw [desDecryptBlock_eq, desDecryptBlock_eq, ch8ToBit64_complement, desIP_flip, roundKeys_map,
    ← List.map_reverse, desRounds_flip, desIP1_flip, bit64ToCh8_flip]

theorem toBlock_drop_complement {keyStr : List UInt8} {offset : Nat}
    (inside : offset + 8 ≤ keyStr.length) :
    toBlock ((keyStr.map fun byte => ~~~byte).drop offset) =
      complement (toBlock (keyStr.drop offset)) := by
  ext1 i small
  have within : offset + i < keyStr.length := by omega
  simp [toBlock, complement, List.getD_eq_getElem?_getD, List.getElem?_drop, within]

/-- Under the complemented key the complemented block has the complemented result. -/
theorem encryptBlock_complement {keyStr : List UInt8} (long : 16 ≤ keyStr.length) :
    ∃ keys others, setKeys keyStr = some keys ∧
      setKeys (keyStr.map fun byte => ~~~byte) = some others ∧
      ∀ block, encryptBlock others (complement block) = complement (encryptBlock keys block) ∧
        decryptBlock others (complement block) = complement (decryptBlock keys block) := by
  have same : (keyStr.map fun byte => ~~~byte).length = keyStr.length := List.length_map _
  obtain ⟨keys, known⟩ := exists_setKeys long
  refine ⟨keys, (keys.1.map flip, keys.2.map flip), known, ?_, ?_⟩
  · rw [setKeys, readBlock_eq (by omega), readBlock_eq (by omega)] at known
    rw [setKeys, readBlock_eq (by omega), readBlock_eq (by omega),
      toBlock_drop_complement (by omega), toBlock_drop_complement (by omega)]
    cases known
    rw [← desSubKey_flip, ← desSubKey_flip, ← ch8ToBit64_complement, ← ch8ToBit64_complement]
    rfl
  · intro block
    simp only [encryptBlock, decryptBlock, desEncryptBlock_complement, desDecryptBlock_complement,
      and_self]

theorem encryptBlock_complement_digits :
    ∃ keys others, setKeys (literal "0123456789abcdef") = some keys ∧
      setKeys ((literal "0123456789abcdef").map fun byte => ~~~byte) = some others ∧
      ∀ block, encryptBlock others (complement block) = complement (encryptBlock keys block) ∧
        decryptBlock others (complement block) = complement (decryptBlock keys block) :=
  encryptBlock_complement (by decide)

end FrameCode.BasEncString
