import FrameCode.LibString
import FrameCode.StringBlocks

/-!
# Trimming and splitting in the caller's buffers

`Trim` and the functions that take a line apart at its `=`, with the buffers they work in: the
reversal goes through two blocks, and deleting the leading spaces copies the rest of the string
once for each of them.  The buffers end up with the strings that the functions on texts compute.
-/

namespace FrameCode.LibStringBuffers

open CText CheckedCopy StringBlocks

/-! ## The functions -/

/-- The loop of `Dx_String` with `more` characters to go. -/
def dxLoop (sSrcString : List UInt8) (iLength : Nat) : Nat → List UInt8 → Option (List UInt8)
  | 0, pPMem => some pPMem
  | more + 1, pPMem => do
      let iCount := iLength - (more + 1)
      let char ← sSrcString[iLength - iCount - 1]?
      let pPMem ← write pPMem iCount [char]
      dxLoop sSrcString iLength more pPMem

/-- `Dx_String`: the destination with the string reversed. -/
def dxString (sSrcString sDstString : List UInt8) : Option (List UInt8) := do
  let iLength ← strlen sSrcString
  let pPMem ← dxLoop sSrcString iLength iLength (cleared (iLength + 1))
  let reversed ← string pPMem 0
  strcpy sDstString 0 reversed

def dxStringYzfc (sSrcString : List UInt8) : Option (List UInt8) := do
  let iLengthStr ← strlen sSrcString
  let pPointMem ← dxString sSrcString (cleared (iLengthStr + 1))
  let length ← strlen sSrcString
  let sSrcString ← memset sSrcString 0 0 length
  let reversed ← string pPointMem 0
  strcpy sSrcString 0 reversed

/-- The loop of `Trim_Before`, with a bound on its rounds: whether there was a space, and the block
with the string behind the spaces. -/
def trimLoop (sString : List UInt8) (iLength : Nat) :
    Nat → Nat → Bool → List UInt8 → Option (Bool × List UInt8)
  | 0, _, _, _ => none
  | fuel + 1, iCount, iFlagYd, pPointMem => do
      let char ← sString[iCount]?
      if char ≠ 32 then some (iFlagYd, pPointMem)
      else do
        let pPointMem ← memset pPointMem 0 0 (iLength + 1)
        let rest ← string sString (iCount + 1)
        let pPointMem ← strcpy pPointMem 0 rest
        trimLoop sString iLength fuel (iCount + 1) true pPointMem

def trimBefore (sString : List UInt8) : Option (List UInt8) := do
  let iLength ← strlen sString
  let (iFlagYd, pPointMem) ←
    trimLoop sString iLength sString.length 0 false (cleared (iLength + 1))
  if iFlagYd then do
    let sString ← memset sString 0 0 iLength
    let rest ← string pPointMem 0
    strcpy sString 0 rest
  else some sString

def trimBehind (sString : List UInt8) : Option (List UInt8) := do
  let sString ← dxStringYzfc sString
  let sString ← trimBefore sString
  dxStringYzfc sString

def trim (sString : List UInt8) : Option (List UInt8) := do
  let sString ← trimBefore sString
  trimBehind sString

/-- The place of the first such character, by `strchr`. -/
def strchr (sSrcString : List UInt8) (cChar : UInt8) : Option (Option Nat) :=
  (string sSrcString 0).map fun s => if cChar ∈ s then some (s.idxOf cChar) else none

/-- `Get_String_Behind_Char`: the destination, or `NULL`. -/
def getStringBehindChar (sSrcString : List UInt8) (cChar : UInt8) (sDstString : List UInt8) :
    Option (Option (List UInt8)) := do
  match ← strchr sSrcString cChar with
  | none => some none
  | some pPointStr =>
      let behind ← string sSrcString (pPointStr + 1)
      let sDstString ← strcpy sDstString 0 behind
      some (some sDstString)

/-- `Get_String_Before_Char`: the destination, or `NULL`. -/
def getStringBeforeChar (sSrcString : List UInt8) (cChar : UInt8) (sDstString : List UInt8) :
    Option (Option (List UInt8)) := do
  match ← strchr sSrcString cChar with
  | none => some none
  | some pPointStr =>
      let before ← read sSrcString 0 pPointStr
      let sDstString ← write sDstString 0 before
      let sDstString ← memset sDstString pPointStr 0 1
      some (some sDstString)

/-- A string that was found is trimmed in its buffer. -/
def trimFound (found : Option (Option (List UInt8))) : Option (Option (List UInt8)) := do
  match ← found with
  | none => some none
  | some sDstString =>
      let sDstString ← trim sDstString
      some (some sDstString)

def getStringBehindDhQdKg (sSrcString sDstString : List UInt8) : Option (Option (List UInt8)) :=
  trimFound (getStringBehindChar sSrcString 61 sDstString)

def getStringBeforeDhQdKg (sSrcString sDstString : List UInt8) : Option (Option (List UInt8)) :=
  trimFound (getStringBeforeChar sSrcString 61 sDstString)

/-- `Get_KeyValue_Dh_QdKg`: the buffers of the key, which is returned, and of the value, or
`NULL`. -/
def getKeyValueDhQdKg (sSrcString sDstKeyString sDstValueString : List UInt8) :
    Option (Option (List UInt8 × List UInt8)) := do
  match ← getStringBehindDhQdKg sSrcString sDstValueString with
  | none => some none
  | some sDstValueString =>
      match ← getStringBeforeDhQdKg sSrcString sDstKeyString with
      | none => some none
      | some sDstKeyString => some (some (sDstKeyString, sDstValueString))

/-! ## Reversing and trimming -/

/-- The function leaves the string `result` in the buffer. -/
def Leaves (f : List UInt8 → Option (List UInt8)) (block result : List UInt8) : Prop :=
  ∃ after, f block = some after ∧ Holds after result ∧ after.length = block.length

section Trimming

variable {block dst s : List UInt8}

/-- The characters from the end of the string on are put behind those before. -/
theorem dxLoop_eq (holds : Holds block s) (more : Nat) (few : more ≤ s.length)
    {done : List UInt8} (place : done.length + more = s.length) :
    dxLoop block s.length more (done ++ List.replicate (more + 1) 0) =
      some (done ++ (s.take more).reverse ++ [0]) := by
  induction more generalizing done with
  | zero => simp [dxLoop]
  | succ more ih =>
      have inside : more < s.length := few
      have here : s.length - (more + 1) = done.length := by omega
      have back : s.length - done.length - 1 = more := by omega
      have found : block[more]? = some s[more] := by
        rw [holds.getElem?_eq inside, List.getElem?_eq_getElem inside]
      have written := write_middle done [0] [s[more]] (List.replicate (more + 1) 0) rfl
      rw [List.append_assoc, List.singleton_append, ← List.replicate_succ] at written
      have place' : (done ++ [s[more]]).length + more = s.length := by
        rw [List.length_append, List.length_singleton]
        omega
      simp only [dxLoop, here, back, found, written, Option.bind_eq_bind, Option.bind_some]
      rw [ih inside.le place', List.take_succ_eq_append_getElem inside, List.reverse_append]
      simp

theorem dxString_leaves (holds : Holds block s) (room : s.length < dst.length) :
    ∃ after, dxString block dst = some after ∧ Holds after s.reverse ∧
      after.length = dst.length := by
  have loop := @dxLoop_eq block s holds s.length (Nat.le_refl _) [] (Nat.zero_add _)
  rw [List.nil_append, List.take_length, List.nil_append] at loop
  have clean : 0 ∉ s.reverse := fun member => holds.clean (List.mem_reverse.mp member)
  have read := holds_iff.mp (holds_append clean [])
  obtain ⟨after, copied, held⟩ := exists_strcpy dst clean (by rwa [List.length_reverse])
  refine ⟨after, ?_, held⟩
  simp only [dxString, holds.strlen_eq, cleared, loop, read, copied, Option.bind_eq_bind,
    Option.bind_some]

theorem dxStringYzfc_leaves (holds : Holds block s) :
    Leaves dxStringYzfc block (LibString.dxStringYzfc s) := by
  have room : s.length < (cleared (s.length + 1)).length := by
    rw [cleared, List.length_replicate]
    exact Nat.lt_succ_self _
  obtain ⟨pPointMem, reversed, held, -⟩ := dxString_leaves holds room
  have shorter := holds.length_lt
  obtain ⟨zeroed, after, set, copied, held', length⟩ :=
    exists_overwrite block shorter.le held.clean (by rwa [List.length_reverse])
  refine ⟨after, ?_, held', length⟩
  simp only [dxStringYzfc, holds.strlen_eq, reversed, set, holds_iff.mp held, copied,
    Option.bind_eq_bind, Option.bind_some]

/-- The loop stops at the first other character; behind a space the block has what follows it. -/
theorem trimLoop_eq (holds : Holds block s) {iCount fuel : Nat} (inside : iCount ≤ s.length)
    (enough : s.length < iCount + fuel) {iFlagYd : Bool} {pPointMem : List UInt8}
    (room : pPointMem.length = s.length + 1)
    (copied : iFlagYd = true → Holds pPointMem (s.drop iCount)) :
    ∃ flag after, trimLoop block s.length fuel iCount iFlagYd pPointMem = some (flag, after) ∧
      (flag = false → iFlagYd = false ∧ (s.drop iCount).dropWhile (· == 32) = s.drop iCount) ∧
      (flag = true → Holds after ((s.drop iCount).dropWhile (· == 32))) := by
  induction fuel generalizing iCount iFlagYd pPointMem with
  | zero => omega
  | succ fuel ih =>
      rcases Nat.lt_or_eq_of_le inside with before | rfl
      · have found : block[iCount]? = some s[iCount] := by
          rw [holds.getElem?_eq before, List.getElem?_eq_getElem before]
        rw [List.drop_eq_getElem_cons before] at copied ⊢
        by_cases space : s[iCount] = 32
        · have read := @Holds.string_eq _ _ (iCount + 1) holds before
          have clean : 0 ∉ s.drop (iCount + 1) := fun member =>
            holds.clean (List.mem_of_mem_drop member)
          obtain ⟨zeroed, after, set, copied', held, length⟩ := exists_overwrite pPointMem
            room.ge clean (by rw [List.length_drop]; omega)
          obtain ⟨flag, last, looped, clear, set'⟩ := @ih (iCount + 1) before (by omega) true after
            (length.trans room) fun _ => held
          refine ⟨flag, last, ?_, ?_, ?_⟩
          · simp only [trimLoop, found, space, set, read, copied', Option.bind_eq_bind,
              Option.bind_some, ne_eq, not_true_eq_false, if_false, looped]
          · intro unset
            cases (clear unset).1
          · rw [List.dropWhile_cons_of_pos (by simpa using space)]
            exact set'
        · refine ⟨iFlagYd, pPointMem, ?_, ?_, ?_⟩
          · simp only [trimLoop, found, Option.bind_eq_bind, Option.bind_some, ne_eq, space,
              not_false_eq_true, if_true]
          · intro unset
            exact ⟨unset, List.dropWhile_cons_of_neg (by simpa using space)⟩
          · rw [List.dropWhile_cons_of_neg (by simpa using space)]
            exact copied
      · refine ⟨iFlagYd, pPointMem, ?_, ?_, ?_⟩
        · simp [trimLoop, holds.terminator]
        · intro unset
          exact ⟨unset, by rw [List.drop_length, List.dropWhile_nil]⟩
        · rw [List.drop_length] at copied ⊢
          exact copied

theorem trimBefore_leaves (holds : Holds block s) :
    Leaves trimBefore block (LibString.trimBefore s) := by
  have shorter := holds.length_lt
  obtain ⟨flag, pPointMem, looped, clear, set⟩ := @trimLoop_eq block s holds 0 block.length
    (Nat.zero_le _) (by omega) false (cleared (s.length + 1))
    (by rw [cleared, List.length_replicate]) nofun
  rw [List.drop_zero] at clear set
  cases flag with
  | false =>
      refine ⟨block, ?_, ?_, rfl⟩
      · simp [trimBefore, holds.strlen_eq, looped]
      · rw [LibString.trimBefore, (clear rfl).2]
        exact holds
  | true =>
      have held := set rfl
      have fewer := (List.dropWhile_sublist (· == (32 : UInt8)) (l := s)).length_le
      obtain ⟨zeroed, after, zeros, copied, held', length⟩ :=
        exists_overwrite block shorter.le held.clean (by omega)
      refine ⟨after, ?_, held', length⟩
      simp [trimBefore, holds.strlen_eq, looped, zeros, holds_iff.mp held, copied]

/-- What one function leaves is what the next one finds. -/
theorem Leaves.bind {f g : List UInt8 → Option (List UInt8)} {result : List UInt8}
    (first : Leaves f block s) (next : ∀ after, Holds after s → Leaves g after result) :
    Leaves (fun block => f block >>= g) block result := by
  obtain ⟨middle, done, held, length⟩ := first
  obtain ⟨after, done', held', length'⟩ := next middle held
  refine ⟨after, ?_, held', length'.trans length⟩
  simp only [done, Option.bind_eq_bind, Option.bind_some, done']

theorem trimBehind_leaves (holds : Holds block s) :
    Leaves trimBehind block (LibString.trimBehind s) :=
  (dxStringYzfc_leaves holds).bind fun _ reversed =>
    (trimBefore_leaves reversed).bind fun _ trimmed => dxStringYzfc_leaves trimmed

theorem trim_leaves (holds : Holds block s) : Leaves trim block (LibString.trim s) :=
  (trimBefore_leaves holds).bind fun _ trimmed => trimBehind_leaves trimmed

end Trimming

/-! ## Keys and values -/

section KeyValue

variable {block dst s before behind : List UInt8} {char : UInt8}

theorem strchr_eq (holds : Holds block s) :
    strchr block char = some (if char ∈ s then some (s.idxOf char) else none) := by
  rw [strchr, holds_iff.mp holds, Option.map_some]

/-- The first such character stands behind a part without it. -/
theorem strchr_found (holds : Holds block (before ++ char :: behind)) (first : char ∉ before) :
    strchr block char = some (some before.length) := by
  rw [strchr_eq holds, if_pos (by simp), List.idxOf_append_of_notMem first, List.idxOf_cons_self,
    Nat.add_zero]

theorem strchr_absent (holds : Holds block s) (absent : char ∉ s) :
    strchr block char = some none := by
  rw [strchr_eq holds, if_neg absent]

theorem getStringBehindChar_found (holds : Holds block (before ++ char :: behind))
    (first : char ∉ before) (room : behind.length < dst.length) :
    ∃ after, getStringBehindChar block char dst = some (some after) ∧ Holds after behind := by
  have read := @Holds.string_eq _ _ (before.length + 1) holds (by simp)
  have rest : (before ++ char :: behind).drop (before.length + 1) = behind := by
    rw [← List.drop_drop, List.drop_left, List.drop_one, List.tail_cons]
  rw [rest] at read
  have clean : 0 ∉ behind := fun member => holds.clean (by simp [member])
  obtain ⟨after, copied, held, -⟩ := exists_strcpy dst clean room
  refine ⟨after, ?_, held⟩
  simp [getStringBehindChar, strchr_found holds first, read, copied]

theorem getStringBeforeChar_found (holds : Holds block (before ++ char :: behind))
    (first : char ∉ before) (room : before.length < dst.length) :
    ∃ after, getStringBeforeChar block char dst = some (some after) ∧ Holds after before := by
  obtain ⟨rest, block_eq⟩ := holds.exists_eq
  have copied : read block 0 before.length = some before := by
    rw [block_eq, List.append_assoc]
    exact read_left before _
  have clean : 0 ∉ before := fun member => holds.clean (by simp [member])
  obtain ⟨cell, others, dst_eq⟩ := List.exists_cons_of_ne_nil
    (List.ne_nil_of_length_pos (show 0 < (dst.drop before.length).length by
      rw [List.length_drop]; omega))
  have written : write dst 0 before = some (before ++ [cell] ++ others) := by
    rw [write, if_pos (by omega), List.take_zero, List.nil_append, Nat.zero_add, dst_eq,
      List.append_assoc, List.singleton_append]
  have terminated := write_middle before [cell] [0] others rfl
  have held : Holds (before ++ [0] ++ others) before := by
    rw [List.append_assoc]
    exact holds_append clean others
  refine ⟨_, ?_, held⟩
  simp only [getStringBeforeChar, strchr_found holds first, copied, written, memset,
    List.replicate_one, terminated, Option.bind_eq_bind, Option.bind_some]

theorem trimFound_some (holds : Holds dst s) :
    ∃ after, trimFound (some (some dst)) = some (some after) ∧ Holds after (LibString.trim s) := by
  obtain ⟨after, trimmed, held, -⟩ := trim_leaves holds
  refine ⟨after, ?_, held⟩
  simp [trimFound, trimmed]

/-- A line with a `=` is taken apart there, and both parts are trimmed. -/
theorem getKeyValueDhQdKg_found {key value : List UInt8}
    (holds : Holds block (before ++ 61 :: behind)) (first : 61 ∉ before)
    (keyRoom : before.length < key.length) (valueRoom : behind.length < value.length) :
    ∃ key' value', getKeyValueDhQdKg block key value = some (some (key', value')) ∧
      Holds key' (LibString.trim before) ∧ Holds value' (LibString.trim behind) := by
  obtain ⟨copy, found, held⟩ := getStringBehindChar_found holds first valueRoom
  obtain ⟨copy', found', held'⟩ := getStringBeforeChar_found holds first keyRoom
  obtain ⟨value', trimmed, heldValue⟩ := trimFound_some held
  obtain ⟨key', trimmed', heldKey⟩ := trimFound_some held'
  refine ⟨key', value', ?_, heldKey, heldValue⟩
  simp [getKeyValueDhQdKg, getStringBehindDhQdKg, getStringBeforeDhQdKg, found, found', trimmed,
    trimmed']

theorem getKeyValueDhQdKg_absent (holds : Holds block s) (absent : 61 ∉ s)
    (key value : List UInt8) : getKeyValueDhQdKg block key value = some none := by
  simp [getKeyValueDhQdKg, getStringBehindDhQdKg, getStringBehindChar,
    strchr_absent holds absent, trimFound]

end KeyValue

end FrameCode.LibStringBuffers
