import FrameCode.BasEncStringBase64
import FrameCode.BasEncStringBlocks

/-!
# Encrypted texts

A text is encrypted block by block, the last one filled up with NUL bytes.  The decrypting function
takes the length of its input from the first NUL byte, so that it gives back the text up to the
block in which the encrypted text has one.
-/

namespace FrameCode.BasEncString

open CText CheckedCopy StringBlocks

/-! ## Lists of blocks -/

/-- The first eight bytes, filled up with NUL bytes. -/
def toBlock (bytes : List UInt8) : Vector UInt8 8 := Vector.ofFn fun i => bytes.getD i 0

/-- The number of blocks of a text. -/
def blocks (length : Nat) : Nat := (length + 7) / 8

/-- The first `count` blocks, one after the other. -/
def eachBlock (crypt : Vector UInt8 8 → Vector UInt8 8) : Nat → List UInt8 → List UInt8
  | 0, _ => []
  | count + 1, bytes => (crypt (toBlock bytes)).toList ++ eachBlock crypt count (bytes.drop 8)

section Blocks

variable {crypt uncrypt : Vector UInt8 8 → Vector UInt8 8} {bytes first rest : List UInt8}
  {count : Nat}

@[simp] theorem length_eachBlock (crypt : Vector UInt8 8 → Vector UInt8 8) (count : Nat)
    (bytes : List UInt8) : (eachBlock crypt count bytes).length = 8 * count := by
  induction count generalizing bytes with
  | zero => rfl
  | succ count ih =>
      rw [eachBlock, List.length_append, Vector.length_toList, ih]
      omega

theorem toBlock_toList_append (block : Vector UInt8 8) (rest : List UInt8) :
    toBlock (block.toList ++ rest) = block := by
  ext i small
  have inside : i < block.toList.length := by simpa using small
  simp [toBlock, List.getD_eq_getElem?_getD, List.getElem?_append_left inside, small]

/-- Only the first bytes count. -/
theorem eachBlock_append (long : 8 * count ≤ first.length) :
    eachBlock crypt count (first ++ rest) = eachBlock crypt count first := by
  induction count generalizing first with
  | zero => rfl
  | succ count ih =>
      have same : toBlock (first ++ rest) = toBlock first := by
        ext i small
        have inside : i < first.length := by omega
        simp [toBlock, List.getD_eq_getElem?_getD, List.getElem?_append_left inside]
      have remaining : 8 * count ≤ (first.drop 8).length := by
        rw [List.length_drop]
        omega
      rw [eachBlock, eachBlock, same, List.drop_append_of_le_length (by omega), ih remaining]

theorem eachBlock_succ_last :
    eachBlock crypt (count + 1) bytes =
      eachBlock crypt count bytes ++ (crypt (toBlock (bytes.drop (8 * count)))).toList := by
  induction count generalizing bytes with
  | zero => simp [eachBlock]
  | succ count ih =>
      have place : 8 + 8 * count = 8 * (count + 1) := by omega
      rw [eachBlock, ih, eachBlock, List.drop_drop, place, List.append_assoc]

/-- Undoing each of some first blocks gives the blocks back. -/
theorem eachBlock_eachBlock (undone : ∀ block, uncrypt (crypt block) = block) {some all : Nat}
    (less : some ≤ all) (bytes rest : List UInt8) :
    eachBlock uncrypt some (eachBlock crypt all bytes ++ rest) = eachBlock id some bytes := by
  induction some generalizing all bytes with
  | zero => rfl
  | succ some ih =>
      obtain ⟨all, rfl⟩ := Nat.exists_eq_succ_of_ne_zero (by omega : all ≠ 0)
      have length : (crypt (toBlock bytes)).toList.length = 8 := Vector.length_toList
      rw [eachBlock, eachBlock, List.append_assoc, toBlock_toList_append, undone,
        List.drop_left' length, ih (by omega)]
      rfl

theorem toList_toBlock (bytes : List UInt8) :
    (toBlock bytes).toList = (List.range 8).map fun i => bytes.getD i 0 := rfl

theorem eachBlock_id (count : Nat) (bytes : List UInt8) :
    eachBlock id count bytes = (List.range (8 * count)).map fun i => bytes.getD i 0 := by
  induction count generalizing bytes with
  | zero => rfl
  | succ count ih =>
      have more : 8 * (count + 1) = 8 + 8 * count := by omega
      rw [eachBlock, id, toList_toBlock, ih, more, List.range_add, List.map_append, List.map_map]
      congr 1
      apply List.map_congr_left
      intro i _
      simp [List.getD_eq_getElem?_getD, List.getElem?_drop]

/-- Blocks as they are: the text and NUL bytes. -/
theorem eachBlock_id_eq (count : Nat) (bytes : List UInt8) :
    eachBlock id count bytes =
      bytes.take (8 * count) ++ List.replicate (8 * count - bytes.length) 0 := by
  rw [eachBlock_id]
  apply List.ext_getElem
  · simp only [List.length_map, List.length_range, List.length_append, List.length_take,
      List.length_replicate]
    omega
  · intro i left right
    have small : i < 8 * count := by simpa using left
    by_cases inside : i < bytes.length
    · have front : i < (bytes.take (8 * count)).length := by
        rw [List.length_take]
        omega
      simp [List.getElem_append_left front, List.getD_eq_getElem?_getD, inside]
    · have behind : (bytes.take (8 * count)).length ≤ i := by
        rw [List.length_take]
        omega
      have outside : bytes.length ≤ i := Nat.not_lt.mp inside
      simp [List.getElem_append_right behind, List.getD_eq_getElem?_getD, outside]

end Blocks

/-! ## The functions on strings -/

section Texts

variable {crypt : Vector UInt8 8 → Vector UInt8 8} {input keyStr out s : List UInt8}
  {keys : SubKeys}

theorem decryptBlock_encryptBlock (keys : SubKeys) (block : Vector UInt8 8) :
    decryptBlock keys (encryptBlock keys block) = block := by
  simp only [decryptBlock, encryptBlock]
  rw [desDecryptBlock_desEncryptBlock, desEncryptBlock_desDecryptBlock,
    desDecryptBlock_desEncryptBlock]

theorem readBlock_eq {offset : Nat} (inside : offset + 8 ≤ input.length) :
    readBlock input offset = some (toBlock (input.drop offset)) := by
  have within : (offset : Int) + (8 : Nat) ≤ input.length := by omega
  have found := read_eq (Int.natCast_nonneg 8) within
  rw [readBlock]
  change (read input offset (8 : Nat)).map _ = _
  rw [found, Option.map_some, Int.toNat_natCast]
  congr 1
  ext i small
  simp [toBlock, List.getD_eq_getElem?_getD]

theorem exists_setKeys (long : 16 ≤ keyStr.length) : ∃ keys, setKeys keyStr = some keys := by
  rw [setKeys, readBlock_eq (by omega), readBlock_eq (by omega)]
  exact ⟨_, rfl⟩

/-- The loop writes the blocks from the one it has come to. -/
theorem blockLoop_eq (crypt : Vector UInt8 8 → Vector UInt8 8) (more : Nat) :
    ∀ {count : Nat} {front old rest : List UInt8}, front.length = 8 * count →
      old.length = 8 * more → 8 * (count + more) ≤ input.length →
      blockLoop crypt input more count (front ++ old ++ rest) =
        some (front ++ eachBlock crypt more (input.drop (8 * count)) ++ rest) := by
  induction more with
  | zero =>
      intro count front old rest _ empty _
      rw [List.length_eq_zero_iff.mp (by omega : old.length = 0)]
      rfl
  | succ more ih =>
      intro count front old rest here long inside
      have length : (crypt (toBlock (input.drop (8 * count)))).toList.length = 8 :=
        Vector.length_toList
      have taken : (old.take 8).length = 8 := List.length_take_of_le (by omega)
      have split : front ++ old ++ rest = front ++ old.take 8 ++ (old.drop 8 ++ rest) := by
        rw [← List.append_assoc, List.append_assoc front (old.take 8), List.take_append_drop]
      have written : write (front ++ old.take 8 ++ (old.drop 8 ++ rest)) (8 * count)
          (crypt (toBlock (input.drop (8 * count)))).toList = some _ :=
        write_at here.symm (length.trans taken.symm)
      have next := @ih (count + 1)
        (front ++ (crypt (toBlock (input.drop (8 * count)))).toList) (old.drop 8) rest
        (by rw [List.length_append, length]; omega) (by rw [List.length_drop]; omega) (by omega)
      have place : 8 * count + 8 = 8 * (count + 1) := by omega
      rw [blockLoop, readBlock_eq (by omega), Option.bind_eq_bind, Option.bind_some, split,
        Option.bind_eq_bind, written, Option.bind_some, ← List.append_assoc, next, eachBlock,
        List.drop_drop, place]
      simp only [List.append_assoc]

/-- All whole blocks from the front on. -/
theorem blockLoop_front (crypt : Vector UInt8 8 → Vector UInt8 8) {count : Nat}
    (inside : 8 * count ≤ input.length) (room : 8 * count ≤ out.length) :
    blockLoop crypt input count 0 out =
      some (eachBlock crypt count input ++ out.drop (8 * count)) := by
  have done := @blockLoop_eq input crypt count 0 [] (out.take (8 * count)) (out.drop (8 * count))
    rfl (List.length_take_of_le room) (by omega)
  simpa only [List.nil_append, List.take_append_drop, Nat.mul_zero, List.drop_zero] using done

/-- The last block, behind the whole ones. -/
theorem write_last {count : Nat} (cells : List UInt8) (room : 8 * (count + 1) ≤ out.length)
    (block : Vector UInt8 8) :
    write (eachBlock crypt count cells ++ out.drop (8 * count)) (8 * count) block.toList =
      some (eachBlock crypt count cells ++ block.toList ++ out.drop (8 * (count + 1))) := by
  have size : block.toList.length = 8 := Vector.length_toList
  have taken : ((out.drop (8 * count)).take 8).length = 8 := by
    rw [List.length_take, List.length_drop]
    omega
  have split : out.drop (8 * count) =
      (out.drop (8 * count)).take 8 ++ out.drop (8 * (count + 1)) := by
    have place : 8 * (count + 1) = 8 * count + 8 := by omega
    rw [place, ← List.drop_drop, List.take_append_drop]
  rw [split, ← List.append_assoc]
  exact write_at (length_eachBlock crypt count cells).symm (size.trans taken.symm)

/-- The last block of the input, once the bytes behind the string are cleared. -/
theorem getElem_filled {behind : List UInt8} (whole : input = s ++ 0 :: behind) {i : Nat}
    (small : i < 8) :
    (if i < s.length % 8 then (toBlock (input.drop (8 * (s.length / 8))))[i] else 0) =
      (toBlock (s.drop (8 * (s.length / 8))))[i] := by
  have place := Nat.div_add_mod s.length 8
  simp only [toBlock, Vector.getElem_ofFn, List.getD_eq_getElem?_getD, List.getElem?_drop]
  by_cases inside : i < s.length % 8
  · rw [if_pos inside, whole, List.getElem?_append_left (by omega)]
  · rw [if_neg inside, List.getElem?_eq_none (by omega)]
    rfl

/-- What `DES_Encrypt` writes for a string. -/
theorem desEncrypt_eq (holds : Holds input s) (known : setKeys keyStr = some keys)
    (inside : 8 * blocks s.length ≤ input.length) (room : 8 * blocks s.length ≤ out.length) :
    desEncrypt input keyStr out =
      some (eachBlock (encryptBlock keys) (blocks s.length) s ++
        out.drop (8 * blocks s.length)) := by
  obtain ⟨behind, whole⟩ := holds.exists_eq
  have few : s.length / 8 ≤ blocks s.length := Nat.div_le_div_right (Nat.le_add_right _ 7)
  have same : eachBlock (encryptBlock keys) (s.length / 8) input =
      eachBlock (encryptBlock keys) (s.length / 8) s := by
    rw [whole]
    exact eachBlock_append (by omega)
  unfold desEncrypt
  rw [known, Option.bind_eq_bind, Option.bind_some, holds.strlen_eq, Option.bind_eq_bind,
    Option.bind_some]
  dsimp only
  rw [blockLoop_front (encryptBlock keys) (by omega) (by omega), Option.bind_eq_bind,
    Option.bind_some, same]
  by_cases odd : s.length % 8 = 0
  · have count : blocks s.length = s.length / 8 := by
      unfold blocks
      omega
    rw [if_neg (not_not.mpr odd), count]
  · have count : blocks s.length = s.length / 8 + 1 := by
      unfold blocks
      omega
    have filled : (Vector.ofFn fun i : Fin 8 =>
        if i < s.length % 8 then (toBlock (input.drop (8 * (s.length / 8))))[i] else 0) =
          toBlock (s.drop (8 * (s.length / 8))) := by
      apply Vector.ext
      intro i small
      rw [Vector.getElem_ofFn]
      exact getElem_filled whole small
    rw [if_pos odd, readBlock_eq (by omega), Option.bind_eq_bind, Option.bind_some,
      write_last s (by omega), count, eachBlock_succ_last, filled]

/-- What `DES_Decrypt` writes for a string. -/
theorem desDecrypt_eq (holds : Holds input s) (known : setKeys keyStr = some keys)
    (inside : 8 * blocks s.length ≤ input.length) (room : 8 * blocks s.length ≤ out.length) :
    desDecrypt input keyStr out =
      some (eachBlock (decryptBlock keys) (blocks s.length) input ++
        out.drop (8 * blocks s.length)) := by
  have few : s.length / 8 ≤ blocks s.length := Nat.div_le_div_right (Nat.le_add_right _ 7)
  unfold desDecrypt
  rw [known, Option.bind_eq_bind, Option.bind_some, holds.strlen_eq, Option.bind_eq_bind,
    Option.bind_some]
  dsimp only
  rw [blockLoop_front (decryptBlock keys) (by omega) (by omega), Option.bind_eq_bind,
    Option.bind_some]
  by_cases odd : s.length % 8 = 0
  · have count : blocks s.length = s.length / 8 := by
      unfold blocks
      omega
    rw [if_neg (not_not.mpr odd), count]
  · have count : blocks s.length = s.length / 8 + 1 := by
      unfold blocks
      omega
    rw [if_pos odd, readBlock_eq (by omega), Option.bind_eq_bind, Option.bind_some,
      write_last input (by omega), count, eachBlock_succ_last]

theorem blocks_le {length count : Nat} (short : length ≤ 8 * count) : blocks length ≤ count := by
  unfold blocks
  omega

/-- A string ends where the block has a NUL byte, or in front of it. -/
theorem length_le_of_nul {cells c : List UInt8} {place : Nat} (holds : Holds cells c)
    (nul : cells[place]? = some 0) : c.length ≤ place := by
  by_contra longer
  have inside : place < c.length := Nat.not_le.mp longer
  have same := holds.getElem?_eq inside
  rw [nul, List.getElem?_eq_getElem inside, Option.some.injEq] at same
  exact holds.clean (same ▸ List.getElem_mem inside)

theorem exists_holds {cells : List UInt8} {place : Nat} (nul : cells[place]? = some 0) :
    ∃ c, Holds cells c := by
  have member : 0 ∈ cells.drop 0 := List.mem_of_getElem? nul
  exact ⟨_, holds_iff.mpr (if_pos member)⟩

end Texts

/-! ## The entry -/

section Entry

variable {value caInString caOutString s : List UInt8} {iFlag : Int} {result : Int × List UInt8}

/-- A key that is not empty has to be decoded first. -/
theorem base64Decode_of_basEncString (holds : Holds value s) (nonempty : s ≠ [])
    (done : basEncString (some value) caInString caOutString iFlag = some result) :
    ∃ key, base64Decode value s.length = some key := by
  have some : s.length ≠ 0 := mt List.length_eq_zero_iff.mp nonempty
  simp only [basEncString, Option.bind_eq_bind, Option.bind_some, holds.strlen_eq,
    if_neg some] at done
  obtain ⟨key, decoded, -⟩ := Option.bind_eq_some_iff.mp done
  exact ⟨key, decoded⟩

theorem basEncString_nil (holds : Holds value []) :
    basEncString (some value) caInString caOutString iFlag = some (-1, caOutString) := by
  simp only [basEncString, Option.bind_eq_bind, Option.bind_some, holds.strlen_eq,
    List.length_nil, if_true]

/-- The two bytes of such a key are NUL bytes, so that it is padded with blanks only. -/
theorem basEncString_equals (holds : Holds value (literal "===")) :
    basEncString (some value) caInString caOutString iFlag = some (-1, caOutString) := by
  have decoded : base64Decode value (literal "===").length = some [0, 0] :=
    base64Decode_eq_some_iff.mpr
      ⟨rfl, (List.prefix_append (literal "===") [0]).trans holds.begins, rfl⟩
  have blank : isSpaceOnly (padKey [0, 0] ++ [0]) 16 = true := by decide
  have nonempty : ¬ (literal "===").length = 0 := by decide
  simp only [basEncString, Option.bind_eq_bind, Option.bind_some, holds.strlen_eq, if_neg nonempty,
    decoded, blank, if_true]

end Entry

end FrameCode.BasEncString
