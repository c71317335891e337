import FrameCode.CText
import Mathlib.Data.List.DropRight

/-!
# The string functions `lib_string.c`

The helpers that the configuration lookups are built from, on the text of C strings.  A
function that returns `NULL` is `none`; its source is left as it was.
-/

namespace FrameCode.LibString

/-! ## The functions -/

/-- `Get_String_Behind_Char`. -/
def getStringBehindChar (source : List UInt8) (char : UInt8) : Option (List UInt8) :=
  if char ∈ source then some ((source.dropWhile (· != char)).drop 1) else none

/-- `Get_String_Before_Char`. -/
def getStringBeforeChar (source : List UInt8) (char : UInt8) : Option (List UInt8) :=
  if char ∈ source then some (source.takeWhile (· != char)) else none

/-- `Del_Char`. -/
def delChar (source : List UInt8) (char : UInt8) : List UInt8 := source.filter (· != char)

/-- `Del_Char_Hh`: delete the newlines. -/
def delCharHh (source : List UInt8) : List UInt8 := delChar source 10

/-- `Dx_String_Yzfc`: reverse a string in its place. -/
def dxStringYzfc (source : List UInt8) : List UInt8 := source.reverse

/-- `Trim_Before`: delete the leading spaces. -/
def trimBefore (source : List UInt8) : List UInt8 := source.dropWhile (· == 32)

/-- `Trim_Behind`: delete the trailing spaces. -/
def trimBehind (source : List UInt8) : List UInt8 :=
  dxStringYzfc (trimBefore (dxStringYzfc source))

/-- `Trim`. -/
def trim (source : List UInt8) : List UInt8 := trimBehind (trimBefore source)

/-- `Get_String_Behind_Dh_QdKgHh`: behind the first `=`, without newlines and outer spaces. -/
def getStringBehindDhQdKgHh (source : List UInt8) : Option (List UInt8) :=
  (getStringBehindChar source 61).map fun behind => trim (delCharHh behind)

/-- `Get_String_Behind_Dh_QdKg`: behind the first `=`, without outer spaces. -/
def getStringBehindDhQdKg (source : List UInt8) : Option (List UInt8) :=
  (getStringBehindChar source 61).map trim

/-- `Get_String_Before_Dh_QdKg`: before the first `=`, without outer spaces. -/
def getStringBeforeDhQdKg (source : List UInt8) : Option (List UInt8) :=
  (getStringBeforeChar source 61).map trim

/-- `Get_KeyValue_Dh_QdKg`: the key and the value on the two sides of the first `=`. -/
def getKeyValueDhQdKg (source : List UInt8) : Option (List UInt8 × List UInt8) := do
  let value ← getStringBehindDhQdKg source
  let key ← getStringBeforeDhQdKg source
  some (key, value)

/-- `Get_String_Between_Zkh`: between the first `[` and the next `]`. -/
def getStringBetweenZkh (source : List UInt8) : Option (List UInt8) :=
  (getStringBehindChar source 91).bind fun behind => getStringBeforeChar behind 93

/-! ## What they compute -/

/-- The string without its outer spaces. -/
def Trimmed (source result : List UInt8) : Prop :=
  ∃ before behind, source = List.replicate before 32 ++ result ++ List.replicate behind 32 ∧
    result.head? ≠ some 32 ∧ result.getLast? ≠ some 32

/-- The text between the first `[` and the next `]`. -/
def Bracketed (source inner : List UInt8) : Prop :=
  ∃ before behind, source = before ++ 91 :: (inner ++ 93 :: behind) ∧ 91 ∉ before ∧ 93 ∉ inner

/-- The parts before and behind the first `=`. -/
def Assignment (source name value : List UInt8) : Prop :=
  source = name ++ 61 :: value ∧ 61 ∉ name

section Char

variable {source result : List UInt8} {char : UInt8}

theorem takeWhile_ne_append {before : List UInt8} (unused : char ∉ before)
    (behind : List UInt8) :
    (before ++ char :: behind).takeWhile (· != char) = before ∧
      (before ++ char :: behind).dropWhile (· != char) = char :: behind := by
  have passes : ∀ other ∈ before, (other != char) = true := fun other member => by
    simpa using fun same : other = char => unused (same ▸ member)
  rw [List.takeWhile_append_of_pos passes, List.dropWhile_append_of_pos passes]
  simp

theorem getStringBehindChar_eq_some_iff :
    getStringBehindChar source char = some result ↔
      ∃ before, source = before ++ char :: result ∧ char ∉ before := by
  constructor
  · intro found
    unfold getStringBehindChar at found
    split at found
    · rename_i member
      obtain ⟨before, behind, rfl, unused⟩ := List.eq_append_cons_of_mem member
      rw [(takeWhile_ne_append unused behind).2] at found
      cases found
      exact ⟨before, rfl, unused⟩
    · cases found
  · rintro ⟨before, rfl, unused⟩
    rw [getStringBehindChar, if_pos (by simp), (takeWhile_ne_append unused result).2]
    rfl

theorem getStringBeforeChar_eq_some_iff :
    getStringBeforeChar source char = some result ↔
      ∃ behind, source = result ++ char :: behind ∧ char ∉ result := by
  constructor
  · intro found
    unfold getStringBeforeChar at found
    split at found
    · rename_i member
      obtain ⟨before, behind, rfl, unused⟩ := List.eq_append_cons_of_mem member
      rw [(takeWhile_ne_append unused behind).1] at found
      cases found
      exact ⟨behind, rfl, unused⟩
    · cases found
  · rintro ⟨behind, rfl, unused⟩
    rw [getStringBeforeChar, if_pos (by simp), (takeWhile_ne_append unused behind).1]

end Char

section Helpers

variable {source result : List UInt8}

theorem getStringBetweenZkh_eq_some_iff :
    getStringBetweenZkh source = some result ↔ Bracketed source result := by
  simp only [getStringBetweenZkh, Option.bind_eq_some_iff, getStringBehindChar_eq_some_iff,
    getStringBeforeChar_eq_some_iff, Bracketed]
  constructor
  · rintro ⟨_, ⟨before, rfl, opening⟩, behind, rfl, closing⟩
    exact ⟨before, behind, rfl, opening, closing⟩
  · rintro ⟨before, behind, rfl, opening, closing⟩
    exact ⟨_, ⟨before, rfl, opening⟩, behind, rfl, closing⟩

theorem getStringBetweenZkh_isSome_iff :
    (getStringBetweenZkh source).isSome ↔ ∃ inner, Bracketed source inner := by
  simp only [Option.isSome_iff_exists, getStringBetweenZkh_eq_some_iff]

/-- Leading spaces are deleted up to the first other byte. -/
theorem trimBefore_replicate (before : Nat) (first : source.head? ≠ some 32) :
    trimBefore (List.replicate before 32 ++ source) = source := by
  have spaces : ∀ byte ∈ List.replicate before (32 : UInt8), (byte == 32) = true := by
    simp
  rw [trimBefore, List.dropWhile_append_of_pos spaces]
  cases source with
  | nil => rfl
  | cons byte rest =>
      have other : byte ≠ 32 := by simpa using first
      simp [other]

theorem exists_trimBefore (source : List UInt8) :
    ∃ before, source = List.replicate before 32 ++ trimBefore source ∧
      (trimBefore source).head? ≠ some 32 := by
  induction source with
  | nil => exact ⟨0, rfl, nofun⟩
  | cons byte rest ih =>
      by_cases space : byte = 32
      · obtain ⟨before, restEq, first⟩ := ih
        have same : trimBefore (byte :: rest) = trimBefore rest := by
          simp [trimBefore, space]
        refine ⟨before + 1, ?_, same ▸ first⟩
        rw [same, List.replicate_succ, List.cons_append, ← restEq, space]
      · have same : trimBefore (byte :: rest) = byte :: rest := by
          simp [trimBefore, space]
        rw [same]
        exact ⟨0, rfl, by simpa using space⟩

theorem trimBehind_replicate (behind : Nat) (final : source.getLast? ≠ some 32) :
    trimBehind (source ++ List.replicate behind 32) = source := by
  have reversed : (source ++ List.replicate behind (32 : UInt8)).reverse =
      List.replicate behind 32 ++ source.reverse := by simp
  rw [trimBehind, dxStringYzfc, dxStringYzfc, reversed,
    trimBefore_replicate _ (by simpa using final), List.reverse_reverse]

theorem exists_trimBehind (source : List UInt8) :
    ∃ behind, source = trimBehind source ++ List.replicate behind 32 ∧
      (trimBehind source).getLast? ≠ some 32 := by
  obtain ⟨behind, reversed, first⟩ := exists_trimBefore source.reverse
  refine ⟨behind, ?_, by simpa [trimBehind, dxStringYzfc] using first⟩
  have restored := congrArg List.reverse reversed
  simpa [trimBehind, dxStringYzfc] using restored

/-- `Trim` computes the only string without outer spaces that the source surrounds with
spaces. -/
theorem trimmed_iff : Trimmed source result ↔ trim source = result := by
  constructor
  · rintro ⟨before, behind, rfl, first, final⟩
    cases result with
    | nil =>
        have spaces := @trimBefore_replicate [] (before + behind) (by simp)
        rw [List.append_nil] at spaces ⊢
        rw [List.replicate_append_replicate, trim, spaces]
        rfl
    | cons byte rest =>
        rw [List.append_assoc, trim, trimBefore_replicate _ (by simpa using first),
          trimBehind_replicate _ final]
  · rintro rfl
    obtain ⟨before, sourceEq, first⟩ := exists_trimBefore source
    obtain ⟨behind, trimmedEq, final⟩ := exists_trimBehind (trimBefore source)
    refine ⟨before, behind, ?_, ?_, final⟩
    · rw [List.append_assoc, trim, ← trimmedEq, ← sourceEq]
    · intro space
      apply first
      rw [trimmedEq, List.head?_append]
      exact congrArg (Option.or · _) space

theorem trimmed_trim (source : List UInt8) : Trimmed source (trim source) :=
  trimmed_iff.mpr rfl

theorem trim_trim (source : List UInt8) : trim (trim source) = trim source := by
  obtain ⟨-, -, -, edges⟩ := trimmed_trim source
  exact trimmed_iff.mp ⟨0, 0, by simp, edges⟩

/-- The two ends of a string can be trimmed in either order. -/
theorem trimBefore_trimBehind (source : List UInt8) :
    trimBefore (trimBehind source) = trimBehind (trimBefore source) := by
  obtain ⟨behind, sourceEq, final⟩ := exists_trimBehind source
  obtain ⟨before, behindEq, first⟩ := exists_trimBefore (trimBehind source)
  have edge : (trimBefore (trimBehind source)).getLast? ≠ some 32 := by
    intro space
    apply final
    rw [behindEq, List.getLast?_append, space, Option.some_or]
  have trimmed : Trimmed source (trimBefore (trimBehind source)) :=
    ⟨before, behind, by rw [← behindEq, ← sourceEq], first, edge⟩
  exact (trimmed_iff.mp trimmed).symm

theorem getStringBehindDhQdKgHh_eq {name value : List UInt8}
    (assignment : Assignment source name value) :
    getStringBehindDhQdKgHh source = some (trim (value.filter (· != 10))) := by
  have behind := getStringBehindChar_eq_some_iff.mpr ⟨name, assignment⟩
  simp [getStringBehindDhQdKgHh, behind, delCharHh, delChar]

theorem getStringBehindDhQdKg_eq {name value : List UInt8}
    (assignment : Assignment source name value) :
    getStringBehindDhQdKg source = some (trim value) := by
  have behind := getStringBehindChar_eq_some_iff.mpr ⟨name, assignment⟩
  simp [getStringBehindDhQdKg, behind]

theorem getStringBeforeDhQdKg_eq_some_iff :
    getStringBeforeDhQdKg source = some result ↔
      ∃ name value, Assignment source name value ∧ Trimmed name result := by
  simp only [getStringBeforeDhQdKg, Option.map_eq_some_iff, getStringBeforeChar_eq_some_iff,
    Assignment, trimmed_iff]
  constructor
  · rintro ⟨name, ⟨value, assigned⟩, trimmed⟩
    exact ⟨name, value, assigned, trimmed⟩
  · rintro ⟨name, value, assigned, trimmed⟩
    exact ⟨name, ⟨value, assigned⟩, trimmed⟩

end Helpers

section Padding

variable {source before behind : List UInt8} {char : UInt8}

theorem getStringBehindChar_pad (notBefore : char ∉ before) (notBehind : char ∉ behind) :
    getStringBehindChar (before ++ source ++ behind) char =
      (getStringBehindChar source char).map (· ++ behind) := by
  cases found : getStringBehindChar source char with
  | some result =>
      obtain ⟨first, rfl, unused⟩ := getStringBehindChar_eq_some_iff.mp found
      refine getStringBehindChar_eq_some_iff.mpr ⟨before ++ first, by simp, ?_⟩
      simp [notBefore, unused]
  | none =>
      have absent : char ∉ source := by simpa [getStringBehindChar] using found
      simp [getStringBehindChar, notBefore, notBehind, absent]

theorem getStringBeforeChar_pad (notBefore : char ∉ before) (notBehind : char ∉ behind) :
    getStringBeforeChar (before ++ source ++ behind) char =
      (getStringBeforeChar source char).map (before ++ ·) := by
  cases found : getStringBeforeChar source char with
  | some result =>
      obtain ⟨final, rfl, unused⟩ := getStringBeforeChar_eq_some_iff.mp found
      refine getStringBeforeChar_eq_some_iff.mpr ⟨final ++ behind, by simp, ?_⟩
      simp [notBefore, unused]
  | none =>
      have absent : char ∉ source := by simpa [getStringBeforeChar] using found
      simp [getStringBeforeChar, notBefore, notBehind, absent]

theorem getStringBetweenZkh_pad (notBefore : 91 ∉ before) (notBehind : 91 ∉ behind)
    (notClosed : 93 ∉ behind) :
    getStringBetweenZkh (before ++ source ++ behind) = getStringBetweenZkh source := by
  rw [getStringBetweenZkh, getStringBehindChar_pad notBefore notBehind, Option.bind_map,
    getStringBetweenZkh]
  congr 1
  funext rest
  have closed := @getStringBeforeChar_pad rest [] behind 93 (by simp) notClosed
  simpa using closed

theorem trim_pad (before behind : Nat) :
    trim (List.replicate before 32 ++ source ++ List.replicate behind 32) = trim source := by
  obtain ⟨first, final, sourceEq, edges⟩ := trimmed_trim source
  refine trimmed_iff.mp ⟨before + first, final + behind, ?_, edges⟩
  rw [← List.replicate_append_replicate, ← List.replicate_append_replicate]
  nth_rewrite 1 [sourceEq]
  simp only [List.append_assoc]

/-- Outer spaces do not change what is found in a line. -/
theorem getStringBetweenZkh_trim (source : List UInt8) :
    getStringBetweenZkh (trim source) = getStringBetweenZkh source := by
  obtain ⟨before, behind, sourceEq, -⟩ := trimmed_trim source
  conv_rhs => rw [sourceEq]
  rw [getStringBetweenZkh_pad (by simp) (by simp) (by simp)]

theorem getKeyValueDhQdKg_trim (source : List UInt8) :
    getKeyValueDhQdKg (trim source) = getKeyValueDhQdKg source := by
  obtain ⟨before, behind, sourceEq, -⟩ := trimmed_trim source
  have value : getStringBehindDhQdKg source = getStringBehindDhQdKg (trim source) := by
    conv_lhs => rw [sourceEq]
    rw [getStringBehindDhQdKg, getStringBehindChar_pad (by simp) (by simp), Option.map_map,
      getStringBehindDhQdKg]
    congr 1
    funext found
    exact @trim_pad found 0 behind
  have key : getStringBeforeDhQdKg source = getStringBeforeDhQdKg (trim source) := by
    conv_lhs => rw [sourceEq]
    rw [getStringBeforeDhQdKg, getStringBeforeChar_pad (by simp) (by simp), Option.map_map,
      getStringBeforeDhQdKg]
    congr 1
    funext found
    have padded := @trim_pad found before 0
    rwa [List.replicate_zero, List.append_nil] at padded
  rw [getKeyValueDhQdKg, getKeyValueDhQdKg, key, value]

end Padding

end FrameCode.LibString
