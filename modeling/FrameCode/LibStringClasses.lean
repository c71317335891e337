import FrameCode.CText
import Mathlib.Algebra.Group.Int.Defs

/-!
# The classes of strings in `lib_string.c`

`Is_Digit_ByString` recognises decimal numbers in one pass.  `Is_EnglishChar_Digit_ByString` asks
it, and the recogniser of letters, about each character of a string.  The recogniser of letters
does not initialise its two counters, so that what is on the stack decides what it answers.
-/

namespace FrameCode.LibStringClasses

open CText

/-! ## Decimal numbers -/

/-- The loop of `Is_Digit_ByString` from index `iNumFor` on, with `iCount` points so far. -/
def digitLoop (iLengthStr : Nat) : Nat → Nat → List UInt8 → Int
  | _, _, [] => 1
  | iNumFor, iCount, byte :: rest =>
      if 48 ≤ byte ∧ byte ≤ 57 then digitLoop iLengthStr (iNumFor + 1) iCount rest
      else if byte = 46 then
        if 2 ≤ iCount + 1 ∨ iNumFor = 0 ∨ iLengthStr = iNumFor + 1 then 0
        else digitLoop iLengthStr (iNumFor + 1) (iCount + 1) rest
      else 0

def isDigitByString (sDigitStr : List UInt8) : Int := digitLoop sDigitStr.length 0 0 sDigitStr

/-- One or more digits. -/
def Digits (s : List UInt8) : Prop := s ≠ [] ∧ ∀ byte ∈ s, isDigit byte = true

/-- Digits, and perhaps a point and more digits. -/
inductive Number : List UInt8 → Prop
  | whole {s : List UInt8} (digits : Digits s) : Number s
  | point {s t : List UInt8} (digits : Digits s) (behind : Digits t) : Number (s ++ 46 :: t)

/-- The recogniser answers with 1 on numbers and with 0 on other strings. -/
structure Recognises (s : List UInt8) : Prop where
  number : isDigitByString s = 1 ↔ Number s
  other : isDigitByString s = 0 ↔ ¬ Number s

section Recogniser

variable {s : List UInt8} {byte : UInt8} {iNumFor iCount : Nat}

theorem isDigit_iff : isDigit byte = true ↔ 48 ≤ byte ∧ byte ≤ 57 := by
  simp [isDigit]

theorem digitLoop_digit (digit : isDigit byte = true) (iLengthStr : Nat) (rest : List UInt8) :
    digitLoop iLengthStr iNumFor iCount (byte :: rest) =
      digitLoop iLengthStr (iNumFor + 1) iCount rest :=
  if_pos (isDigit_iff.mp digit)

theorem digitLoop_point (iLengthStr : Nat) (rest : List UInt8) :
    digitLoop iLengthStr iNumFor iCount (46 :: rest) =
      if 2 ≤ iCount + 1 ∨ iNumFor = 0 ∨ iLengthStr = iNumFor + 1 then 0
      else digitLoop iLengthStr (iNumFor + 1) (iCount + 1) rest := rfl

theorem digitLoop_other (digit : ¬ isDigit byte = true) (point : byte ≠ 46) (iLengthStr : Nat)
    (rest : List UInt8) : digitLoop iLengthStr iNumFor iCount (byte :: rest) = 0 := by
  rw [digitLoop, if_neg (mt isDigit_iff.mpr digit), if_neg point]

theorem digitLoop_zero_or_one (iLengthStr iNumFor iCount : Nat) (s : List UInt8) :
    digitLoop iLengthStr iNumFor iCount s = 0 ∨ digitLoop iLengthStr iNumFor iCount s = 1 := by
  induction s generalizing iNumFor iCount with
  | nil => exact Or.inr rfl
  | cons byte rest ih =>
      unfold digitLoop
      split
      · exact ih _ _
      · split
        · split
          · exact Or.inl rfl
          · exact ih _ _
        · exact Or.inl rfl

/-- Behind a point only digits are taken. -/
theorem digitLoop_behind_point (iLengthStr : Nat) :
    digitLoop iLengthStr iNumFor 1 s = 1 ↔ ∀ byte ∈ s, isDigit byte = true := by
  induction s generalizing iNumFor with
  | nil => simp [digitLoop]
  | cons byte rest ih =>
      rw [List.forall_mem_cons]
      by_cases digit : isDigit byte = true
      · rw [digitLoop_digit digit, ih]
        simp [digit]
      · by_cases point : byte = 46
        · subst point
          rw [digitLoop_point, if_pos (Or.inl le_rfl)]
          simp [digit]
        · rw [digitLoop_other digit point]
          simp [digit]

/-- What may stand behind the first digit of a number. -/
def Follows (s : List UInt8) : Prop :=
  (∀ byte ∈ s, isDigit byte = true) ∨
    ∃ first last, s = first ++ 46 :: last ∧ (∀ byte ∈ first, isDigit byte = true) ∧ Digits last

theorem follows_digit (digit : isDigit byte = true) : Follows (byte :: s) ↔ Follows s := by
  unfold Follows
  rw [List.forall_mem_cons]
  constructor
  · rintro (⟨-, all⟩ | ⟨first, last, split, digits, behind⟩)
    · exact Or.inl all
    · cases first with
      | nil =>
          cases split
          cases digit
      | cons other first =>
          cases split
          rw [List.forall_mem_cons] at digits
          exact Or.inr ⟨first, last, rfl, digits.2, behind⟩
  · rintro (all | ⟨first, last, rfl, digits, behind⟩)
    · exact Or.inl ⟨digit, all⟩
    · exact Or.inr ⟨byte :: first, last, rfl, List.forall_mem_cons.mpr ⟨digit, digits⟩, behind⟩

theorem follows_point : Follows (46 :: s) ↔ Digits s := by
  have notDigit : ¬ isDigit 46 = true := by decide
  constructor
  · rintro (all | ⟨first, last, split, digits, behind⟩)
    · exact absurd (all 46 List.mem_cons_self) notDigit
    · cases first with
      | nil =>
          cases split
          exact behind
      | cons other first =>
          cases split
          exact absurd (digits 46 List.mem_cons_self) notDigit
  · exact fun digits => Or.inr ⟨[], s, rfl, List.forall_mem_nil _, digits⟩

theorem not_follows (digit : ¬ isDigit byte = true) (point : byte ≠ 46) :
    ¬ Follows (byte :: s) := by
  rintro (all | ⟨first, last, split, digits, -⟩)
  · exact digit (all byte List.mem_cons_self)
  · cases first with
    | nil =>
        cases split
        exact point rfl
    | cons other first =>
        cases split
        exact digit (digits byte List.mem_cons_self)

theorem number_cons : Number (byte :: s) ↔ isDigit byte = true ∧ Follows s := by
  constructor
  · generalize whole : byte :: s = source
    intro number
    cases number with
    | whole digits =>
        subst whole
        have all := List.forall_mem_cons.mp digits.2
        exact ⟨all.1, Or.inl all.2⟩
    | @point first last digits behind =>
        cases first with
        | nil => exact absurd rfl digits.1
        | cons other first =>
            cases whole
            have all := List.forall_mem_cons.mp digits.2
            exact ⟨all.1, Or.inr ⟨first, last, rfl, all.2, behind⟩⟩
  · rintro ⟨digit, all | ⟨first, last, rfl, digits, behind⟩⟩
    · exact .whole ⟨List.cons_ne_nil _ _, List.forall_mem_cons.mpr ⟨digit, all⟩⟩
    · have before : Digits (byte :: first) :=
        ⟨List.cons_ne_nil _ _, List.forall_mem_cons.mpr ⟨digit, digits⟩⟩
      exact .point before behind

/-- Behind the first digit one point with digits behind it is taken too. -/
theorem digitLoop_behind_digit (behind : 0 < iNumFor) :
    digitLoop (iNumFor + s.length) iNumFor 0 s = 1 ↔ Follows s := by
  induction s generalizing iNumFor with
  | nil => simp [digitLoop, Follows]
  | cons byte rest ih =>
      have length : iNumFor + (byte :: rest).length = iNumFor + 1 + rest.length := by
        rw [List.length_cons]
        omega
      rw [length]
      by_cases digit : isDigit byte = true
      · rw [digitLoop_digit digit, follows_digit digit]
        exact ih (Nat.succ_pos _)
      · by_cases point : byte = 46
        · subst point
          rw [digitLoop_point, follows_point, Digits]
          by_cases last : rest = []
          · simp [last]
          · have more : 0 < rest.length := List.length_pos_iff.mpr last
            rw [if_neg (by omega), digitLoop_behind_point]
            simp [last]
        · rw [digitLoop_other digit point]
          simp [not_follows digit point]

/-- The first character of a number is a digit. -/
theorem isDigitByString_cons : isDigitByString (byte :: s) = 1 ↔ Number (byte :: s) := by
  rw [number_cons, isDigitByString]
  by_cases digit : isDigit byte = true
  · have length : (byte :: s).length = 0 + 1 + s.length := by
      rw [List.length_cons]
      omega
    rw [digitLoop_digit digit, length, digitLoop_behind_digit (Nat.succ_pos _)]
    simp [digit]
  · by_cases point : byte = 46
    · subst point
      rw [digitLoop_point, if_pos (Or.inr (Or.inl rfl))]
      simp [digit]
    · rw [digitLoop_other digit point]
      simp [digit]

theorem not_number_nil : ¬ Number [] := by
  generalize empty : ([] : List UInt8) = source
  intro number
  cases number with
  | whole digits => exact digits.1 empty.symm
  | point digits behind => simp at empty

end Recogniser

/-! ## Letters, digits and points -/

/-- The string of one character. -/
def charToStr (cSrcChar : UInt8) : List UInt8 := text [cSrcChar, 0]

def isDigitByChar (sDigitStr : UInt8) : Int := isDigitByString (charToStr sDigitStr)

/-- The counters `iIs_Xx` and `iIs_Dx` before they are first used. -/
abbrev Uninitialised := BitVec 32 × BitVec 32

/-- The loop of `Is_EnglishChar_ByString`, and what it makes of the counters. -/
def englishCharLoop (iIsXx iIsDx : BitVec 32) : List UInt8 → Int
  | [] =>
      if iIsXx ≠ 0 ∧ iIsDx = 0 then 1
      else if iIsXx = 0 ∧ iIsDx ≠ 0 then 2
      else if iIsXx ≠ 0 ∧ iIsDx ≠ 0 then 3
      else 0
  | byte :: rest =>
      if 65 ≤ byte ∧ byte ≤ 90 then englishCharLoop iIsXx (iIsDx + 1) rest
      else if 97 ≤ byte ∧ byte ≤ 122 then englishCharLoop (iIsXx + 1) iIsDx rest
      else 0

def isEnglishCharByString (stack : Uninitialised) (sEnglishCharStr : List UInt8) : Int :=
  englishCharLoop stack.1 stack.2 sEnglishCharStr

def isEnglishCharByChar (stack : Uninitialised) (sEnglishCharStr : UInt8) : Int :=
  isEnglishCharByString stack (charToStr sEnglishCharStr)

/-- The counters of `Is_EnglishChar_Digit_ByString`. -/
structure Counts where
  digit : Nat
  englishChar1 : Nat
  englishChar2 : Nat
  englishChar3 : Nat

/-- The loop of `Is_EnglishChar_Digit_ByString` from index `iNumFor` on, which may return 0.  Each
call of the recogniser of letters finds its own values on the stack. -/
def classLoop (stack : Nat → Uninitialised) (iRet : Int) :
    Nat → Counts → List UInt8 → Option Counts
  | _, counts, [] => some counts
  | iNumFor, counts, byte :: rest =>
      if isDigitByChar byte ≠ 0 then
        classLoop stack iRet (iNumFor + 1) { counts with digit := counts.digit + 1 } rest
      else if iRet = isEnglishCharByChar (stack iNumFor) byte then
        if iRet = 1 then
          classLoop stack iRet (iNumFor + 1)
            { counts with englishChar1 := counts.englishChar1 + 1 } rest
        else if iRet = 2 then
          classLoop stack iRet (iNumFor + 1)
            { counts with englishChar2 := counts.englishChar2 + 1 } rest
        else if iRet = 3 then
          classLoop stack iRet (iNumFor + 1)
            { counts with englishChar3 := counts.englishChar3 + 1 } rest
        else classLoop stack iRet (iNumFor + 1) counts rest
      else none

def isEnglishCharDigitByString (stack : Nat → Uninitialised) (sSrcStr : List UInt8) : Int :=
  match classLoop stack 0 0 ⟨0, 0, 0, 0⟩ sSrcStr with
  | none => 0
  | some counts =>
      if sSrcStr.length = counts.digit then 1
      else if sSrcStr.length = counts.englishChar1 then 2
      else if sSrcStr.length = counts.englishChar2 then 3
      else if sSrcStr.length = counts.englishChar3 then 4
      else 5

/-! ## The documented classes -/

def Lower (byte : UInt8) : Prop := 97 ≤ byte ∧ byte ≤ 122

def Upper (byte : UInt8) : Prop := 65 ≤ byte ∧ byte ≤ 90

def Letter (byte : UInt8) : Prop := Lower byte ∨ Upper byte

def DigitOrPoint (byte : UInt8) : Prop := isDigit byte = true ∨ byte = 46

instance (byte : UInt8) : Decidable (Lower byte) := inferInstanceAs (Decidable (_ ∧ _))

instance (byte : UInt8) : Decidable (Upper byte) := inferInstanceAs (Decidable (_ ∧ _))

instance (byte : UInt8) : Decidable (Letter byte) := inferInstanceAs (Decidable (_ ∨ _))

instance (byte : UInt8) : Decidable (DigitOrPoint byte) := inferInstanceAs (Decidable (_ ∨ _))

/-- The class of a string as the comment of `Is_EnglishChar_Digit_ByString` defines it. -/
def documentedClass (s : List UInt8) : Int :=
  if s.any fun byte => ¬ Letter byte ∧ ¬ DigitOrPoint byte then 0
  else if s.all fun byte => Lower byte then 1
  else if s.all fun byte => Upper byte then 2
  else if s.all fun byte => Letter byte then 3
  else if s.all fun byte => DigitOrPoint byte then 4
  else 5

/-- The recogniser of letters, with these values on the stack, does not answer with 0. -/
def Heeded (stack : Uninitialised) (byte : UInt8) : Prop :=
  (Lower byte ∧ ¬ (stack.1 = -1 ∧ stack.2 = 0)) ∨ (Upper byte ∧ ¬ (stack.1 = 0 ∧ stack.2 = -1))

section Classes

variable {stack : Uninitialised} {byte : UInt8}

theorem charToStr_eq (character : byte ≠ 0) : charToStr byte = [byte] := by
  simp [charToStr, text, character]

theorem isDigitByChar_ne_zero_iff (character : byte ≠ 0) :
    isDigitByChar byte ≠ 0 ↔ isDigit byte = true := by
  rw [isDigitByChar, charToStr_eq character, isDigitByString]
  by_cases digit : isDigit byte = true
  · rw [digitLoop_digit digit]
    simp [digitLoop, digit]
  · by_cases point : byte = 46
    · subst point
      simp [digitLoop, digit]
    · rw [digitLoop_other digit point]
      simp [digit]

theorem englishCharLoop_nil (iIsXx iIsDx : BitVec 32) :
    englishCharLoop iIsXx iIsDx [] ≠ 0 ↔ ¬ (iIsXx = 0 ∧ iIsDx = 0) := by
  have chosen (xx dx : Prop) [Decidable xx] [Decidable dx] :
      (if ¬ xx ∧ dx then 1 else if xx ∧ ¬ dx then 2 else if ¬ xx ∧ ¬ dx then 3 else 0 : Int) ≠ 0 ↔
        ¬ (xx ∧ dx) := by
    by_cases xx <;> by_cases dx <;> simp [*]
  exact chosen _ _

theorem isEnglishCharByChar_ne_zero_iff (character : byte ≠ 0) :
    isEnglishCharByChar stack byte ≠ 0 ↔ Heeded stack byte := by
  have next (n : BitVec 32) : n + 1 = 0 ↔ n = -1 := by bv_omega
  rw [isEnglishCharByChar, charToStr_eq character, isEnglishCharByString, englishCharLoop, Heeded]
  change (if Upper byte then _ else if Lower byte then _ else _) ≠ 0 ↔ _
  by_cases upper : Upper byte
  · have notLower : ¬ Lower byte := by
      rintro ⟨low, -⟩
      exact absurd (UInt8.le_trans low upper.2) (by decide)
    rw [if_pos upper, englishCharLoop_nil, next]
    simp only [notLower, upper, false_and, true_and, false_or]
  · rw [if_neg upper]
    by_cases lower : Lower byte
    · rw [if_pos lower, englishCharLoop_nil, next]
      simp only [lower, upper, false_and, true_and, or_false]
    · rw [if_neg lower]
      simp only [lower, upper, false_and, or_self, ne_eq, not_true_eq_false]

theorem Heeded.letter (heeded : Heeded stack byte) : Letter byte :=
  heeded.imp And.left And.left

theorem Letter.not_digitOrPoint (letter : Letter byte) : ¬ DigitOrPoint byte := by
  rintro (digit | rfl)
  · have bounds := isDigit_iff.mp digit
    rcases letter with lower | upper
    · exact absurd (UInt8.le_trans lower.1 bounds.2) (by decide)
    · exact absurd (UInt8.le_trans upper.1 bounds.2) (by decide)
  · revert letter
    decide

end Classes

section Loop

variable {s : List UInt8} {byte : UInt8} {stack : Nat → Uninitialised} {iNumFor : Nat}

/-- A letter of the string, whose index counts from `iNumFor` on, is heeded. -/
def HeedsFrom (stack : Nat → Uninitialised) (iNumFor : Nat) (s : List UInt8) : Prop :=
  ∃ k byte, s[k]? = some byte ∧ Heeded (stack (iNumFor + k)) byte

theorem heedsFrom_cons :
    HeedsFrom stack iNumFor (byte :: s) ↔
      Heeded (stack iNumFor) byte ∨ HeedsFrom stack (iNumFor + 1) s := by
  constructor
  · rintro ⟨k, other, found, heeded⟩
    cases k with
    | zero =>
        cases found
        exact Or.inl heeded
    | succ k =>
        rw [Nat.add_comm k, ← Nat.add_assoc] at heeded
        exact Or.inr ⟨k, other, found, heeded⟩
  · rintro (heeded | ⟨k, other, found, heeded⟩)
    · exact ⟨0, byte, rfl, heeded⟩
    · rw [Nat.add_assoc, Nat.add_comm 1] at heeded
      exact ⟨k + 1, other, found, heeded⟩

/-- A letter that is heeded makes the function return 0, since it is compared with 0. -/
theorem classLoop_of_heeds (clean : 0 ∉ s) (heeds : HeedsFrom stack iNumFor s)
    (counts : Counts) : classLoop stack 0 iNumFor counts s = none := by
  induction s generalizing iNumFor counts with
  | nil =>
      obtain ⟨k, byte, found, -⟩ := heeds
      cases found
  | cons byte rest ih =>
      rw [List.mem_cons, not_or] at clean
      have character : byte ≠ 0 := Ne.symm clean.1
      rcases heedsFrom_cons.mp heeds with heeded | later
      · have notDigit : ¬ isDigit byte = true := fun digit =>
          heeded.letter.not_digitOrPoint (Or.inl digit)
        have answered := (isEnglishCharByChar_ne_zero_iff character).mpr heeded
        rw [classLoop, if_neg (mt (isDigitByChar_ne_zero_iff character).mp notDigit),
          if_neg (Ne.symm answered)]
      · unfold classLoop
        split
        · exact ih clean.2 later _
        · split
          · exact ih clean.2 later _
          · rfl

/-- Otherwise the function counts the digits only. -/
theorem classLoop_of_not_heeds (clean : 0 ∉ s) (unheeded : ¬ HeedsFrom stack iNumFor s)
    (counts : Counts) :
    classLoop stack 0 iNumFor counts s =
      some { counts with digit := counts.digit + s.countP isDigit } := by
  induction s generalizing iNumFor counts with
  | nil => rfl
  | cons byte rest ih =>
      rw [List.mem_cons, not_or] at clean
      rw [heedsFrom_cons, not_or] at unheeded
      have character : byte ≠ 0 := Ne.symm clean.1
      rw [classLoop]
      by_cases digit : isDigit byte = true
      · rw [if_pos ((isDigitByChar_ne_zero_iff character).mpr digit), ih clean.2 unheeded.2,
          List.countP_cons_of_pos digit, Nat.add_right_comm, Nat.add_assoc]
      · have silent : (0 : Int) = isEnglishCharByChar (stack iNumFor) byte := by
          by_contra answered
          exact unheeded.1 ((isEnglishCharByChar_ne_zero_iff character).mp (Ne.symm answered))
        rw [if_neg (mt (isDigitByChar_ne_zero_iff character).mp digit), if_pos silent,
          List.countP_cons_of_neg digit]
        exact ih clean.2 unheeded.2 _

theorem isEnglishCharDigitByString_of_heeds (clean : 0 ∉ s) (heeds : HeedsFrom stack 0 s) :
    isEnglishCharDigitByString stack s = 0 := by
  rw [isEnglishCharDigitByString, classLoop_of_heeds clean heeds]

theorem isEnglishCharDigitByString_of_not_heeds (nonempty : s ≠ []) (clean : 0 ∉ s)
    (unheeded : ¬ HeedsFrom stack 0 s) :
    isEnglishCharDigitByString stack s = if s.length = s.countP isDigit then 1 else 5 := by
  have positive : s.length ≠ 0 := (List.length_pos_iff.mpr nonempty).ne'
  simp only [isEnglishCharDigitByString, classLoop_of_not_heeds clean unheeded, Nat.zero_add,
    positive, if_false]

end Loop

section Documented

variable {s : List UInt8}

theorem documentedClass_eq_zero_iff :
    documentedClass s = 0 ↔ ∃ byte ∈ s, ¬ Letter byte ∧ ¬ DigitOrPoint byte := by
  have documented : (s.any fun byte => ¬ Letter byte ∧ ¬ DigitOrPoint byte) = true ↔
      ∃ byte ∈ s, ¬ Letter byte ∧ ¬ DigitOrPoint byte := by
    simp
  rw [← documented, documentedClass]
  split
  · rename_i other
    exact iff_of_true rfl other
  · rename_i other
    refine iff_of_false ?_ other
    repeat' split
    all_goals decide

theorem documentedClass_eq_five_iff :
    documentedClass s = 5 ↔ (∀ byte ∈ s, Letter byte ∨ DigitOrPoint byte) ∧
      (∃ byte ∈ s, Letter byte) ∧ ∃ byte ∈ s, DigitOrPoint byte := by
  have five (p₀ p₁ p₂ p₃ p₄ : Bool) :
      (if p₀ then 0 else if p₁ then 1 else if p₂ then 2 else if p₃ then 3 else if p₄ then 4
        else 5 : Int) = 5 ↔ p₀ = false ∧ p₁ = false ∧ p₂ = false ∧ p₃ = false ∧ p₄ = false := by
    revert p₀ p₁ p₂ p₃ p₄
    decide
  rw [documentedClass, five]
  simp only [List.any_eq_false, List.all_eq_false, decide_eq_true_eq]
  constructor
  · rintro ⟨legal, -, -, ⟨other, inside, notLetter⟩, ⟨letter, member, notDigit⟩⟩
    have classes (byte : UInt8) (found : byte ∈ s) : Letter byte ∨ DigitOrPoint byte :=
      or_iff_not_and_not.mpr (legal byte found)
    exact ⟨classes, ⟨letter, member, (classes letter member).resolve_right notDigit⟩,
      other, inside, (classes other inside).resolve_left notLetter⟩
  · rintro ⟨legal, ⟨letter, member, isLetter⟩, other, inside, isDigit⟩
    have notLetter : ¬ Letter other := fun letter => letter.not_digitOrPoint isDigit
    refine ⟨?_, ⟨other, inside, ?_⟩, ⟨other, inside, ?_⟩, ⟨other, inside, notLetter⟩,
      letter, member, isLetter.not_digitOrPoint⟩
    · exact fun byte found => or_iff_not_and_not.mp (legal byte found)
    · exact fun lower => notLetter (Or.inl lower)
    · exact fun upper => notLetter (Or.inr upper)

theorem documentedClass_ne_one (nonempty : s ≠ []) (digits : ∀ byte ∈ s, isDigit byte = true) :
    documentedClass s ≠ 1 := by
  obtain ⟨first, member⟩ := List.exists_mem_of_ne_nil s nonempty
  have notLower : ¬ Lower first := fun lower =>
    Letter.not_digitOrPoint (Or.inl lower) (Or.inl (digits first member))
  have notAll : (s.all fun byte => Lower byte) = false := by
    rw [List.all_eq_false]
    exact ⟨first, member, by simpa using notLower⟩
  unfold documentedClass
  rw [notAll]
  repeat' split
  all_goals simp_all

end Documented

end FrameCode.LibStringClasses
