import FrameCode.Occurrences
import FrameCode.StringBlocks

/-!
# Counting and replacing occurrences in `lib_string.c`

The loop of `Count_ChildStr_Num` has one way out, which returns the error code.  Replacing an
occurrence asks for the count first, and so never gets beyond it.
-/

namespace FrameCode.LibStringReplace

open CText CheckedCopy StringBlocks Occurrences

/-! ## The functions -/

/-- The loop of `Count_ChildStr_Num`, with a bound on its rounds; addresses are offsets in the
source string. -/
def countLoop (sSrcString sChildString : List UInt8) : Nat → Nat → Nat → Option Int
  | 0, _, _ => none
  | fuel + 1, iCount, pPointRet =>
      let pPointAddr := if 0 = iCount then 0 else pPointRet + sChildString.length
      match find sChildString (sSrcString.drop pPointAddr) with
      | some place => countLoop sSrcString sChildString fuel (iCount + 1) (pPointAddr + place)
      | none => some (-1)

def countChildStrNum (sSrcString sChildString : List UInt8) : Option Int :=
  countLoop sSrcString sChildString (sSrcString.length + 1) 0 0

/-- The loop of `Replace_Str_To_Str_OrderByCount`, with a bound on its rounds: the place where it
stops, or `NULL`.  Every round searches the whole string. -/
def replaceLoop (sSrcString sThSrcString : List UInt8) (iOrderCount : Int) :
    Nat → Int → Option (Option Nat)
  | 0, _ => none
  | fuel + 1, iCountWhile =>
      match find sThSrcString sSrcString with
      | none => some none
      | some place =>
          if iCountWhile + 1 = iOrderCount then some (some place)
          else replaceLoop sSrcString sThSrcString iOrderCount fuel (iCountWhile + 1)

/-- `Replace_Str_To_Str_OrderByCount`: the destination, or `NULL`. -/
def replaceStrToStrOrderByCount (sSrcString sDstString sThSrcString sThDstString : List UInt8)
    (iOrderCount : Int) : Option (Option (List UInt8)) := do
  let iCountPp ← countChildStrNum sSrcString sThSrcString
  if iCountPp < iOrderCount then some none
  else
    match ← replaceLoop sSrcString sThSrcString iOrderCount iOrderCount.toNat 0 with
    | none => some none
    | some iLengthStringTb =>
        let iLengthStringWb : Int := sSrcString.length - sThSrcString.length - iLengthStringTb
        let iLengthDstString := iLengthStringTb + sThDstString.length + iLengthStringWb
        let pPointMem := cleared iLengthDstString.toNat
        let head ← read sSrcString 0 iLengthStringTb
        let tail ← read sSrcString (iLengthStringTb + sThSrcString.length) iLengthStringWb
        let pPointMem ← write pPointMem 0 head
        let pPointMem ← write pPointMem iLengthStringTb sThDstString
        let pPointMem ← write pPointMem (iLengthStringTb + sThDstString.length) tail
        let sDstString ← write sDstString 0 pPointMem
        some (some sDstString)

/-! ## What they are for -/

/-- The string with the pattern at `place` replaced. -/
def replacedAt (source pattern replacement : List UInt8) (place : Nat) : List UInt8 :=
  source.take place ++ replacement ++ source.drop (place + pattern.length)

/-- The count is the number of the occurrences, and the occurrence with the given number is
replaced when there is one. -/
structure CountsAndReplaces (source pattern replacement dst : List UInt8) (order : Int) : Prop where
  counts : countChildStrNum source pattern = some ((occurrences pattern source).length : Int)
  missing : (occurrences pattern source).length < order →
    replaceStrToStrOrderByCount source dst pattern replacement order = some none
  replaced : ∀ place, (occurrences pattern source)[order.toNat - 1]? = some place →
    ∃ after, replaceStrToStrOrderByCount source dst pattern replacement order = some (some after) ∧
      Holds after (replacedAt source pattern replacement place)

section Counting

variable {source pattern replacement dst : List UInt8} {order : Int}

/-- Every round begins behind the occurrence before, and the last one returns the error code. -/
theorem countLoop_eq (nonempty : pattern ≠ []) {fuel iCount pPointRet : Nat}
    (inside : (if 0 = iCount then 0 else pPointRet + pattern.length) ≤ source.length)
    (enough : source.length < (if 0 = iCount then 0 else pPointRet + pattern.length) + fuel) :
    countLoop source pattern fuel iCount pPointRet = some (-1) := by
  induction fuel generalizing iCount pPointRet with
  | zero => exact absurd enough (Nat.not_lt.mpr inside)
  | succ fuel ih =>
      rw [countLoop]
      generalize (if 0 = iCount then 0 else pPointRet + pattern.length) = pPointAddr
        at inside enough
      cases found : find pattern (source.drop pPointAddr) with
      | none => rfl
      | some place =>
          have within := length_le_of_find found nonempty
          have positive := List.length_pos_iff.mpr nonempty
          rw [List.length_drop] at within
          have later : ¬ 0 = iCount + 1 := (Nat.succ_ne_zero iCount).symm
          apply ih
          · rw [if_neg later]
            omega
          · rw [if_neg later]
            omega

theorem countChildStrNum_eq (nonempty : pattern ≠ []) :
    countChildStrNum source pattern = some (-1) :=
  countLoop_eq nonempty (Nat.zero_le _) (by rw [if_pos rfl]; omega)

/-- No occurrence is ever replaced. -/
theorem replaceStrToStrOrderByCount_eq (nonempty : pattern ≠ []) (positive : 1 ≤ order) :
    replaceStrToStrOrderByCount source dst pattern replacement order = some none := by
  have fewer : (-1 : Int) < order := by omega
  rw [replaceStrToStrOrderByCount, countChildStrNum_eq nonempty, Option.bind_eq_bind,
    Option.bind_some, if_pos fewer]

/-- The count is never right. -/
theorem not_countsAndReplaces (nonempty : pattern ≠ []) :
    ¬ CountsAndReplaces source pattern replacement dst order := by
  intro right
  have count := right.counts
  rw [countChildStrNum_eq nonempty, Option.some.injEq] at count
  omega

end Counting

/-- Two occurrences, of which the first is to be replaced. -/
theorem not_countsAndReplaces_letters :
    ¬ CountsAndReplaces (literal "aba") (literal "a") (literal "cd") (cleared 8) 1 :=
  not_countsAndReplaces (by decide)

/-- The count of the two occurrences, and the replacement of the first. -/
theorem countChildStrNum_letters :
    countChildStrNum (literal "aba") (literal "a") = some (-1) ∧
      occurrences (literal "a") (literal "aba") = [0, 2] ∧
      replaceStrToStrOrderByCount (literal "aba") (cleared 8) (literal "a") (literal "cd") 1 =
        some none ∧
      ¬ CountsAndReplaces (literal "aba") (literal "a") (literal "cd") (cleared 8) 1 := by
  have count : countChildStrNum (literal "aba") (literal "a") = some (-1) := by decide
  refine ⟨count, by decide, replaceStrToStrOrderByCount_eq (by decide) (by decide),
    fun right => ?_⟩
  have same := right.counts
  rw [count, Option.some.injEq] at same
  omega

end FrameCode.LibStringReplace
