import FrameCode.CText

/-!
# Matching brackets in `lib_string.c`

`Get_Point_Dkh_Between` counts the opening and the closing brackets of a string, and takes every
place where it has seen as many of both for the end.  The last of these places wins, and when the
function succeeds that is the last character of the string.  The address goes through an `int`.
-/

namespace FrameCode.LibStringBrackets

open CText MachineInt

/-! ## The scan -/

def outFlagKh (sInCharKh : UInt8) : Int :=
  if sInCharKh = 91 ∨ sInCharKh = 93 then 1
  else if sInCharKh = 123 ∨ sInCharKh = 125 then 2
  else if sInCharKh = 40 ∨ sInCharKh = 41 then 3
  else -1

/-- `cChar_Start` and `cChar_End` for the answer of `OutFlag_Kh`. -/
def chars (iRet : Int) : Option (UInt8 × UInt8) :=
  if iRet = 1 then some (91, 93)
  else if iRet = 2 then some (123, 125)
  else if iRet = 3 then some (40, 41)
  else none

/-- The local variables of the loop. -/
structure Scan where
  coutStart : Nat
  coutEnd : Nat
  locationStart : Nat
  locationEnd : Nat

/-- The first test of the loop, for index `i`. -/
def Scan.starts (scan : Scan) (cCharStart : UInt8) (i : Nat) (byte : UInt8) : Scan :=
  if cCharStart = byte then
    { scan with
      coutStart := scan.coutStart + 1
      locationStart := if scan.coutStart + 1 = 1 then i else scan.locationStart }
  else scan

/-- The second test. -/
def Scan.ends (scan : Scan) (cCharEnd : UInt8) (byte : UInt8) : Scan :=
  if cCharEnd = byte then { scan with coutEnd := scan.coutEnd + 1 } else scan

/-- The third test. -/
def Scan.evens (scan : Scan) (i : Nat) : Scan :=
  if scan.coutStart = scan.coutEnd then { scan with locationEnd := i } else scan

section Loop

variable (cCharStart cCharEnd : UInt8)

def Scan.next (scan : Scan) (i : Nat) (byte : UInt8) : Scan :=
  ((scan.starts cCharStart i byte).ends cCharEnd byte).evens i

/-- The loop from index `i` on. -/
def Scan.run : Nat → Scan → List UInt8 → Scan
  | _, scan, [] => scan
  | i, scan, byte :: rest => Scan.run (i + 1) (scan.next cCharStart cCharEnd i byte) rest

end Loop

/-- What is returned, and the addresses at `*ppKhStart` and `*ppKhEnd` when these are set. -/
structure Outcome where
  returned : Int
  points : Option (Nat × Nat)

/-- A call for a string that begins at the address `sInStr`. -/
def getPointDkhBetween (sInStr : Nat) (source : List UInt8) (sInCharKh : UInt8) : Outcome :=
  match chars (outFlagKh sInCharKh) with
  | none => ⟨0, none⟩
  | some (cCharStart, cCharEnd) =>
      let scan := Scan.run cCharStart cCharEnd 0 ⟨0, 0, 0, 0⟩ source
      if 0 = scan.coutStart ∨ scan.coutStart ≠ scan.coutEnd then ⟨0, none⟩
      else
        ⟨toInt32 (sInStr + scan.locationEnd : Nat),
          some (sInStr + scan.locationStart, sInStr + scan.locationEnd)⟩

/-! ## Matching brackets -/

section Brackets

variable (opening closing : UInt8)

/-- Strings in which every bracket has its match. -/
inductive Balanced : List UInt8 → Prop
  | nil : Balanced []
  | other {byte : UInt8} {s : List UInt8} (plain : byte ≠ opening ∧ byte ≠ closing)
      (later : Balanced s) : Balanced (byte :: s)
  | nested {inner s : List UInt8} (inside : Balanced inner) (later : Balanced s) :
      Balanced (opening :: (inner ++ closing :: s))

/-- The first opening bracket stands behind `before`, and its match behind `inner`. -/
structure Matched (source before inner behind : List UInt8) : Prop where
  source_eq : source = before ++ opening :: (inner ++ closing :: behind)
  first : opening ∉ before
  inside : Balanced opening closing inner

/-- The function finds the first opening bracket and its match, when there are such. -/
structure FindsMatch (sInStr : Nat) (source : List UInt8) (outcome : Outcome) : Prop where
  matched : ∀ before inner behind, Matched opening closing source before inner behind →
    outcome = ⟨(sInStr + (before.length + 1 + inner.length) : Nat),
      some (sInStr + before.length, sInStr + (before.length + 1 + inner.length))⟩
  absent : opening ∉ source → outcome.returned = 0

end Brackets

section Scans

variable {opening closing byte : UInt8} {s t : List UInt8} {scan : Scan} {i : Nat}

theorem Balanced.count_eq (different : opening ≠ closing) (balanced : Balanced opening closing s) :
    s.count opening = s.count closing := by
  induction balanced with
  | nil => rfl
  | other plain later ih =>
      rw [List.count_cons_of_ne plain.1, List.count_cons_of_ne plain.2, ih]
  | nested inside later insideEq laterEq =>
      rw [List.count_cons_self, List.count_cons_of_ne different, List.count_append,
        List.count_append, List.count_cons_self, List.count_cons_of_ne different.symm, insideEq,
        laterEq, Nat.add_assoc]

theorem Matched.opened {source before inner behind : List UInt8}
    (matched : Matched opening closing source before inner behind) : opening ∈ source := by
  rw [matched.source_eq]
  exact List.mem_append_right _ List.mem_cons_self

/-- The brackets of a string with a match for its first one, and where this one is. -/
theorem Matched.counts {source before inner behind : List UInt8} (different : opening ≠ closing)
    (matched : Matched opening closing source before inner behind) :
    source.count opening = inner.count opening + behind.count opening + 1 ∧
      source.count closing =
        before.count closing + (inner.count opening + behind.count closing + 1) ∧
      source.length = before.length + (inner.length + behind.length + 2) ∧
      source.idxOf opening = before.length := by
  obtain ⟨rfl, first, inside⟩ := matched
  refine ⟨?_, ?_, ?_, ?_⟩
  · rw [List.count_append, List.count_eq_zero_of_not_mem first, List.count_cons_self,
      List.count_append, List.count_cons_of_ne different.symm]
    omega
  · rw [List.count_append, List.count_cons_of_ne different, List.count_append,
      List.count_cons_self, inside.count_eq different]
    omega
  · simp only [List.length_append, List.length_cons]
    omega
  · rw [List.idxOf_append_of_notMem first, List.idxOf_cons_self, Nat.add_zero]

@[simp] theorem Scan.ends_coutStart : (scan.ends closing byte).coutStart = scan.coutStart := by
  unfold Scan.ends
  split <;> rfl

@[simp] theorem Scan.ends_locationStart :
    (scan.ends closing byte).locationStart = scan.locationStart := by
  unfold Scan.ends
  split <;> rfl

@[simp] theorem Scan.evens_coutStart : (scan.evens i).coutStart = scan.coutStart := by
  unfold Scan.evens
  split <;> rfl

@[simp] theorem Scan.evens_coutEnd : (scan.evens i).coutEnd = scan.coutEnd := by
  unfold Scan.evens
  split <;> rfl

@[simp] theorem Scan.evens_locationStart :
    (scan.evens i).locationStart = scan.locationStart := by
  unfold Scan.evens
  split <;> rfl

@[simp] theorem Scan.starts_coutEnd : (scan.starts opening i byte).coutEnd = scan.coutEnd := by
  unfold Scan.starts
  split <;> rfl

theorem Scan.next_coutStart :
    (scan.next opening closing i byte).coutStart = scan.coutStart + [byte].count opening := by
  rw [Scan.next, Scan.evens_coutStart, Scan.ends_coutStart, Scan.starts]
  split
  · rename_i start
    rw [start, List.count_singleton_self]
  · rename_i other
    rw [List.count_eq_zero.mpr (by simpa using other), Nat.add_zero]

theorem Scan.next_coutEnd :
    (scan.next opening closing i byte).coutEnd = scan.coutEnd + [byte].count closing := by
  rw [Scan.next, Scan.evens_coutEnd, Scan.ends]
  split
  · rename_i end_
    rw [end_, List.count_singleton_self, Scan.starts_coutEnd]
  · rename_i other
    rw [List.count_eq_zero.mpr (by simpa using other), Nat.add_zero, Scan.starts_coutEnd]

/-- The end is a place behind which as many brackets have been opened as closed. -/
theorem Scan.next_locationEnd
    (even : (scan.next opening closing i byte).coutStart =
      (scan.next opening closing i byte).coutEnd) :
    (scan.next opening closing i byte).locationEnd = i := by
  rw [Scan.next] at even ⊢
  rw [Scan.evens_coutStart, Scan.evens_coutEnd] at even
  rw [Scan.evens, if_pos even]

theorem Scan.next_locationStart :
    (scan.next opening closing i byte).locationStart =
      if opening = byte ∧ scan.coutStart = 0 then i else scan.locationStart := by
  rw [Scan.next, Scan.evens_locationStart, Scan.ends_locationStart, Scan.starts]
  by_cases start : opening = byte
  · simp only [start, if_true, true_and, Nat.add_eq_right]
  · simp only [start, if_false, false_and]

theorem Scan.run_append :
    Scan.run opening closing i scan (s ++ t) =
      Scan.run opening closing (i + s.length) (Scan.run opening closing i scan s) t := by
  induction s generalizing i scan with
  | nil => rfl
  | cons byte s ih =>
      rw [List.cons_append, Scan.run, ih, Scan.run, List.length_cons, Nat.add_assoc,
        Nat.add_comm 1]

theorem Scan.run_counts :
    (Scan.run opening closing i scan s).coutStart = scan.coutStart + s.count opening ∧
      (Scan.run opening closing i scan s).coutEnd = scan.coutEnd + s.count closing := by
  induction s generalizing i scan with
  | nil => exact ⟨rfl, rfl⟩
  | cons byte s ih =>
      have count (bracket : UInt8) :
          (byte :: s).count bracket = [byte].count bracket + s.count bracket := by
        rw [← List.count_append, List.singleton_append]
      rw [Scan.run, ih.1, ih.2, Scan.next_coutStart, Scan.next_coutEnd, count, count,
        Nat.add_assoc, Nat.add_assoc]
      exact ⟨rfl, rfl⟩

/-- Behind the first opening bracket its place is kept. -/
theorem Scan.run_locationStart_of_pos (behind : 0 < scan.coutStart) :
    (Scan.run opening closing i scan s).locationStart = scan.locationStart := by
  induction s generalizing i scan with
  | nil => rfl
  | cons byte s ih =>
      have counted := @Scan.next_coutStart opening closing byte scan i
      rw [Scan.run, ih (by omega), Scan.next_locationStart, if_neg fun both => behind.ne' both.2]

theorem Scan.run_locationStart (unopened : scan.coutStart = 0) (first : opening ∉ s) :
    (Scan.run opening closing i scan (s ++ opening :: t)).locationStart = i + s.length := by
  have counted := (@Scan.run_counts opening closing s scan i).1
  rw [List.count_eq_zero_of_not_mem first, unopened] at counted
  have start := @Scan.next_coutStart opening closing opening (Scan.run opening closing i scan s)
    (i + s.length)
  rw [List.count_singleton_self] at start
  rw [Scan.run_append, Scan.run, Scan.run_locationStart_of_pos (by omega),
    Scan.next_locationStart, if_pos ⟨rfl, counted⟩]

/-- A string with as many opening as closing brackets ends at its last character. -/
theorem Scan.run_locationEnd (nonempty : s ≠ [])
    (even : (Scan.run opening closing 0 scan s).coutStart =
      (Scan.run opening closing 0 scan s).coutEnd) :
    (Scan.run opening closing 0 scan s).locationEnd = s.length - 1 := by
  obtain ⟨init, byte, rfl⟩ := (List.eq_nil_or_concat' s).resolve_left nonempty
  rw [Scan.run_append, Scan.run, Scan.run] at even ⊢
  rw [Scan.next_locationEnd even, List.length_append, List.length_singleton, Nat.zero_add,
    Nat.add_sub_cancel]

end Scans

section Calls

variable {opening closing kh : UInt8} {source : List UInt8} {sInStr : Nat}

theorem chars_ne (known : chars (outFlagKh kh) = some (opening, closing)) : opening ≠ closing := by
  unfold chars at known
  split at known
  · cases known
    decide
  · split at known
    · cases known
      decide
    · split at known
      · cases known
        decide
      · cases known

/-- The function succeeds when there are brackets, as many opening as closing ones. -/
theorem getPointDkhBetween_eq (known : chars (outFlagKh kh) = some (opening, closing)) :
    getPointDkhBetween sInStr source kh =
      if 0 = source.count opening ∨ source.count opening ≠ source.count closing then ⟨0, none⟩
      else
        ⟨toInt32 (sInStr + (source.length - 1) : Nat),
          some (sInStr + source.idxOf opening, sInStr + (source.length - 1))⟩ := by
  obtain ⟨starts, ends⟩ := @Scan.run_counts opening closing source ⟨0, 0, 0, 0⟩ 0
  simp only [Nat.zero_add] at starts ends
  unfold getPointDkhBetween
  rw [known]
  simp only [starts, ends]
  split
  · rfl
  · rename_i brackets
    rw [not_or, not_not] at brackets
    have opened : opening ∈ source :=
      List.count_pos_iff.mp (Nat.pos_of_ne_zero (Ne.symm brackets.1))
    have nonempty : source ≠ [] := List.ne_nil_of_mem opened
    have even : (Scan.run opening closing 0 ⟨0, 0, 0, 0⟩ source).coutStart =
        (Scan.run opening closing 0 ⟨0, 0, 0, 0⟩ source).coutEnd := by
      rw [starts, ends, brackets.2]
    obtain ⟨before, behind, rfl, first⟩ := List.eq_append_cons_of_mem opened
    have place : (before ++ opening :: behind).idxOf opening = before.length := by
      rw [List.idxOf_append_of_notMem first, List.idxOf_cons_self, Nat.add_zero]
    rw [Scan.run_locationEnd nonempty even, Scan.run_locationStart rfl first, place, Nat.zero_add]

/-- The last character is taken for the end. -/
theorem getPointDkhBetween_brackets (known : chars (outFlagKh kh) = some (opening, closing))
    (opened : opening ∈ source) (even : source.count opening = source.count closing) :
    getPointDkhBetween sInStr source kh =
      ⟨toInt32 (sInStr + (source.length - 1) : Nat),
        some (sInStr + source.idxOf opening, sInStr + (source.length - 1))⟩ := by
  have brackets : ¬ (0 = source.count opening ∨ source.count opening ≠ source.count closing) := by
    rw [not_or, not_not]
    exact ⟨(List.count_pos_iff.mpr opened).ne, even⟩
  rw [getPointDkhBetween_eq known, if_neg brackets]

theorem even_of_points {returned : Int} {points : Nat × Nat}
    (known : chars (outFlagKh kh) = some (opening, closing))
    (found : getPointDkhBetween sInStr source kh = ⟨returned, some points⟩) :
    source.count opening = source.count closing := by
  rw [getPointDkhBetween_eq known] at found
  split at found
  · cases found
  · rename_i brackets
    rw [not_or, not_not] at brackets
    exact brackets.2

/-- An address comes through an `int` when it is small. -/
theorem toInt32_address_iff {address : Nat} :
    toInt32 address = address ↔ address < 2147483648 := by
  rw [toInt32, Int.bmod_def]
  constructor
  · intro same
    split at same <;> omega
  · intro small
    split <;> omega

end Calls

end FrameCode.LibStringBrackets
