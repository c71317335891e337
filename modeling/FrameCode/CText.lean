import FrameCode.MachineInt
import Mathlib.Data.List.TakeWhile
import Mathlib.Data.Nat.Digits.Lemmas
import Mathlib.Tactic.Ring

/-!
# Text and numbers in C

The conversions between text and numbers of the C library, in the C locale.
-/

namespace FrameCode.CText

open MachineInt

/-- The text of a C string: the bytes before its NUL. -/
def text (bytes : List UInt8) : List UInt8 := bytes.takeWhile fun byte => byte != 0

/-- `strncmp` finds no difference in the first `count` bytes. -/
def strncmpEqual (first second : List UInt8) (count : Nat) : Bool :=
  (text first ++ [0]).take count == (text second ++ [0]).take count

/-- The bytes of a string literal, without its NUL. -/
def literal (s : String) : List UInt8 := s.toList.map fun c => UInt8.ofNat c.toNat

/-- `isspace` of the C locale. -/
def isSpace (byte : UInt8) : Bool := byte == 32 || (9 ≤ byte && byte ≤ 13)

def isDigit (byte : UInt8) : Bool := 48 ≤ byte && byte ≤ 57

/-- The value of a run of decimal digits. -/
def digitsValue (digits : List UInt8) : Nat :=
  digits.foldl (fun value digit => 10 * value + (digit.toNat - 48)) 0

/-- `strtol` in base 10: spaces, a sign and digits, clamped to 64 bits. -/
def strtol (bytes : List UInt8) : Int :=
  let clamp (n : Int) : Int := max (-9223372036854775808) (min n 9223372036854775807)
  match (text bytes).dropWhile isSpace with
  | 45 :: rest => clamp (-(digitsValue (rest.takeWhile isDigit)))
  | 43 :: rest => clamp (digitsValue (rest.takeWhile isDigit))
  | rest => clamp (digitsValue (rest.takeWhile isDigit))

def atoi (bytes : List UInt8) : Int := toInt32 (strtol bytes)

def atol (bytes : List UInt8) : Int := strtol bytes

def atoll (bytes : List UInt8) : Int := strtol bytes

/-- Decimal digits, most significant first. -/
def decimalNat (n : Nat) : List UInt8 :=
  if n = 0 then [48] else (Nat.digits 10 n).reverse.map fun digit => UInt8.ofNat (48 + digit)

/-- The text of the conversions `%d` and `%u` and their `l` and `ll` forms. -/
def decimal (n : Int) : List UInt8 :=
  if n < 0 then 45 :: decimalNat n.natAbs else decimalNat n.natAbs

/-! ## Reading decimal digits -/

theorem digitsValue_snoc (digits : List UInt8) (digit : UInt8) :
    digitsValue (digits ++ [digit]) = 10 * digitsValue digits + (digit.toNat - 48) := by
  simp [digitsValue]

theorem digitsValue_append (first second : List UInt8) :
    digitsValue (first ++ second) =
      digitsValue first * 10 ^ second.length + digitsValue second := by
  induction second using List.reverseRecOn with
  | nil => simp [digitsValue]
  | append_singleton second digit ih =>
      rw [← List.append_assoc, digitsValue_snoc, digitsValue_snoc, ih, List.length_append,
        List.length_singleton, pow_succ]
      ring

theorem digitsValue_replicate (width : Nat) : digitsValue (List.replicate width 48) = 0 := by
  induction width with
  | zero => rfl
  | succ width ih =>
      rw [List.replicate_succ', digitsValue_snoc, ih]
      rfl

/-- The byte of a decimal digit. -/
theorem toNat_digit {digit : Nat} (small : digit < 10) :
    (UInt8.ofNat (48 + digit)).toNat = 48 + digit := by
  rw [UInt8.toNat_ofNat']
  exact Nat.mod_eq_of_lt (by omega)

theorem isDigit_decimalNat (n : Nat) : ∀ byte ∈ decimalNat n, isDigit byte = true := by
  intro byte member
  unfold decimalNat at member
  split at member
  · rw [List.mem_singleton.mp member]
    rfl
  · obtain ⟨digit, inDigits, rfl⟩ := List.mem_map.mp member
    have small := Nat.digits_lt_base (by decide : 1 < 10) (List.mem_reverse.mp inDigits)
    have value := toNat_digit small
    simp only [isDigit, Bool.and_eq_true, decide_eq_true_eq, UInt8.le_iff_toNat_le, value]
    exact ⟨Nat.le_add_right _ _, by show 48 + digit ≤ 57; omega⟩

theorem digitsValue_ofDigits {digits : List Nat} (small : ∀ digit ∈ digits, digit < 10) :
    digitsValue (digits.reverse.map fun digit => UInt8.ofNat (48 + digit)) =
      Nat.ofDigits 10 digits := by
  induction digits with
  | nil => rfl
  | cons digit rest ih =>
      rw [List.reverse_cons, List.map_append, List.map_singleton, digitsValue_snoc,
        ih fun other member => small other (by simp [member]), toNat_digit (small digit (by simp)),
        Nat.ofDigits_cons, Nat.add_sub_cancel_left, Nat.add_comm]

theorem digitsValue_decimalNat (n : Nat) : digitsValue (decimalNat n) = n := by
  unfold decimalNat
  split
  · rename_i zero
    rw [zero]
    rfl
  · rw [digitsValue_ofDigits fun digit member => Nat.digits_lt_base (by decide) member,
      Nat.ofDigits_digits]

theorem length_decimalNat_le {n width : Nat} (positive : 0 < width) (bound : n < 10 ^ width) :
    (decimalNat n).length ≤ width := by
  unfold decimalNat
  split
  · exact positive
  · rw [List.length_map, List.length_reverse]
    exact (Nat.digits_length_le_iff (by decide) n).mpr bound

theorem isSpace_of_isDigit {byte : UInt8} (digit : isDigit byte = true) :
    isSpace byte = false := by
  simp only [isDigit, isSpace, Bool.and_eq_true, decide_eq_true_eq, UInt8.le_iff_toNat_le,
    Bool.or_eq_false_iff, beq_eq_false_iff_ne, Bool.and_eq_false_iff, decide_eq_false_iff_not,
    ← UInt8.toNat_inj, ne_eq, UInt8.reduceToNat] at digit ⊢
  omega

theorem ne_zero_of_isDigit {byte : UInt8} (digit : isDigit byte = true) : byte ≠ 0 := by
  rintro rfl
  cases digit

/-- The text in front of a NUL. -/
theorem text_append_nul {bytes : List UInt8} (nonzero : ∀ byte ∈ bytes, byte ≠ 0)
    (rest : List UInt8) : text (bytes ++ 0 :: rest) = bytes := by
  rw [text, List.takeWhile_append_of_pos fun byte member => bne_iff_ne.mpr (nonzero byte member)]
  simp

/-- The range of a 64-bit number. -/
def clampLong (n : Int) : Int := max (-9223372036854775808) (min n 9223372036854775807)

/-- `strtol` on digits: there is no space and no sign to skip. -/
theorem strtol_digits {digits : List UInt8} (allDigits : ∀ byte ∈ digits, isDigit byte = true)
    (rest : List UInt8) : strtol (digits ++ 0 :: rest) = clampLong (digitsValue digits) := by
  have textEq : text (digits ++ 0 :: rest) = digits :=
    text_append_nul (fun byte member => ne_zero_of_isDigit (allDigits byte member)) rest
  have taken : digits.takeWhile isDigit = digits := List.takeWhile_eq_self_iff.mpr allDigits
  unfold strtol
  rw [textEq]
  cases digits with
  | nil => rfl
  | cons first others =>
      have digit := allDigits first (by simp)
      rw [List.dropWhile_cons_of_neg (by simp [isSpace_of_isDigit digit])]
      split
      · rename_i minus
        cases minus
        cases digit
      · rename_i plus
        cases plus
        cases digit
      · rw [taken]
        rfl

/-- `strtol` on a minus sign and digits. -/
theorem strtol_minus {digits : List UInt8} (allDigits : ∀ byte ∈ digits, isDigit byte = true)
    (rest : List UInt8) : strtol (45 :: digits ++ 0 :: rest) = clampLong (-digitsValue digits) := by
  have nonzero : ∀ byte ∈ 45 :: digits, byte ≠ 0 := by
    intro byte member
    rcases List.mem_cons.mp member with rfl | later
    · decide
    · exact ne_zero_of_isDigit (allDigits byte later)
  have taken : digits.takeWhile isDigit = digits := List.takeWhile_eq_self_iff.mpr allDigits
  unfold strtol
  rw [text_append_nul nonzero, List.dropWhile_cons_of_neg (by decide)]
  simp only [taken]
  rfl

/-- `strtol` reads back what the decimal conversions print, within the range of 64 bits. -/
theorem strtol_decimal (n : Int) (rest : List UInt8) :
    strtol (decimal n ++ 0 :: rest) = clampLong n := by
  unfold decimal
  split
  · rw [strtol_minus (isDigit_decimalNat _), digitsValue_decimalNat]
    congr 1
    omega
  · rw [strtol_digits (isDigit_decimalNat _), digitsValue_decimalNat]
    congr 1
    omega

theorem decimal_ne_zero (n : Int) : ∀ byte ∈ decimal n, byte ≠ 0 := by
  intro byte member
  unfold decimal at member
  split at member
  · rcases List.mem_cons.mp member with rfl | later
    · decide
    · exact ne_zero_of_isDigit (isDigit_decimalNat _ byte later)
  · exact ne_zero_of_isDigit (isDigit_decimalNat _ byte member)

/-- `atoi` of digits that are followed by a NUL. -/
theorem atoi_digits {digits : List UInt8} (allDigits : ∀ byte ∈ digits, isDigit byte = true)
    (bound : digitsValue digits < 2147483648) (rest : List UInt8) :
    atoi (digits ++ 0 :: rest) = digitsValue digits := by
  have inRange : clampLong (digitsValue digits) = digitsValue digits := by
    unfold clampLong
    omega
  rw [atoi, strtol_digits allDigits, inRange]
  exact toInt32_eq (by omega) (by omega)

/-! ## Comparisons and spaces -/

theorem text_eq_self {bytes : List UInt8} (clean : 0 ∉ bytes) : text bytes = bytes := by
  apply List.takeWhile_eq_self_iff.mpr
  intro byte member
  exact bne_iff_ne.mpr fun zero => clean (zero ▸ member)

/-- The comparison over the length of the first string asks whether it begins the second. -/
theorem strncmpEqual_length {first second : List UInt8} (clean : 0 ∉ first) :
    strncmpEqual first second first.length = first.isPrefixOf (text second) := by
  have taken : (text first ++ [0]).take first.length = first := by
    rw [text_eq_self clean, List.take_left]
  rw [strncmpEqual, taken, Bool.eq_iff_iff, beq_iff_eq, List.isPrefixOf_iff_prefix]
  constructor
  · intro same
    have begins : first <+: text second ++ [0] := same ▸ List.take_prefix _ _
    rcases List.prefix_concat_iff.mp begins with whole | shorter
    · exact absurd (whole ▸ by simp) clean
    · exact shorter
  · intro begins
    have longer := begins.trans (List.prefix_append _ [0])
    exact List.prefix_iff_eq_take.mp longer

theorem takeWhile_append_of_none {p : UInt8 → Bool} {first second : List UInt8}
    (stops : ∀ byte ∈ second, p byte = false) :
    (first ++ second).takeWhile p = first.takeWhile p := by
  induction first with
  | nil =>
      cases second with
      | nil => rfl
      | cons byte rest => simp [stops byte (by simp)]
  | cons byte rest ih => simp [List.takeWhile_cons, ih]

/-- Spaces around a number do not change it. -/
theorem strtol_pad {before source behind : List UInt8} (clean : 0 ∉ source)
    (spacesBefore : ∀ byte ∈ before, isSpace byte = true)
    (spacesBehind : ∀ byte ∈ behind, isSpace byte = true) :
    strtol (before ++ source ++ behind) = strtol source := by
  have nonzero : ∀ byte, isSpace byte = true → byte ≠ 0 := by
    rintro byte space rfl
    cases space
  have digitless : ∀ byte ∈ behind, isDigit byte = false := by
    intro byte member
    have space := spacesBehind byte member
    by_contra digit
    rw [Bool.not_eq_false] at digit
    rw [isSpace_of_isDigit digit] at space
    cases space
  have whole : text (before ++ source ++ behind) = before ++ source ++ behind := by
    apply text_eq_self
    simp only [List.mem_append, not_or]
    exact ⟨⟨fun member => nonzero 0 (spacesBefore 0 member) rfl, clean⟩,
      fun member => nonzero 0 (spacesBehind 0 member) rfl⟩
  have dropped : (before ++ source ++ behind).dropWhile isSpace =
      if (source.dropWhile isSpace).isEmpty then [] else source.dropWhile isSpace ++ behind := by
    rw [List.append_assoc, List.dropWhile_append_of_pos spacesBefore, List.dropWhile_append]
    congr 1
    exact List.dropWhile_eq_nil_iff.mpr spacesBehind
  unfold strtol
  rw [whole, text_eq_self clean, dropped]
  cases source.dropWhile isSpace with
  | nil => rfl
  | cons byte rest =>
      have taken := @takeWhile_append_of_none isDigit rest behind digitless
      have takenAll := @takeWhile_append_of_none isDigit (byte :: rest) behind digitless
      simp only [List.isEmpty_cons, Bool.false_eq_true, if_false]
      by_cases minus : byte = 45
      · subst minus
        rw [List.cons_append]
        simp only [taken]
      · by_cases plus : byte = 43
        · subst plus
          rw [List.cons_append]
          simp only [taken]
        · split
          · rename_i sign
            cases sign
            exact absurd rfl minus
          · rename_i sign
            cases sign
            exact absurd rfl plus
          · split
            · rename_i sign
              cases sign
              exact absurd rfl minus
            · rename_i sign
              cases sign
              exact absurd rfl plus
            · rw [takenAll]

theorem atoi_pad {before source behind : List UInt8} (clean : 0 ∉ source)
    (spacesBefore : ∀ byte ∈ before, isSpace byte = true)
    (spacesBehind : ∀ byte ∈ behind, isSpace byte = true) :
    atoi (before ++ source ++ behind) = atoi source := by
  rw [atoi, strtol_pad clean spacesBefore spacesBehind, atoi]

/-! ## The size of a number -/

theorem digitsValue_lt {digits : List UInt8} (allDigits : ∀ byte ∈ digits, isDigit byte = true) :
    digitsValue digits < 10 ^ digits.length := by
  induction digits using List.reverseRecOn with
  | nil => decide
  | append_singleton digits digit ih =>
      have small : digit.toNat ≤ 57 := by
        have last := allDigits digit (by simp)
        simp only [isDigit, Bool.and_eq_true, decide_eq_true_eq, UInt8.le_iff_toNat_le] at last
        exact last.2
      have before := ih fun byte member => allDigits byte (List.mem_append_left _ member)
      rw [digitsValue_snoc, List.length_append, List.length_singleton, Nat.pow_succ]
      omega

/-- The digits of a text are too few for more than its length allows. -/
theorem abs_strtol_lt (bytes : List UInt8) : |strtol bytes| < 10 ^ bytes.length := by
  have value (digits : List UInt8) (few : digits.length ≤ bytes.length) :
      digitsValue (digits.takeWhile isDigit) < 10 ^ bytes.length := by
    have taken : digitsValue (digits.takeWhile isDigit) < 10 ^ (digits.takeWhile isDigit).length :=
      digitsValue_lt fun byte member => List.mem_takeWhile_imp member
    have fewer : (digits.takeWhile isDigit).length ≤ bytes.length :=
      (List.takeWhile_sublist _).length_le.trans few
    exact taken.trans_le (Nat.pow_le_pow_right (by decide) fewer)
  have short : ((text bytes).dropWhile isSpace).length ≤ bytes.length :=
    (List.dropWhile_sublist _).length_le.trans (List.takeWhile_sublist _).length_le
  have positive : (0 : Int) < 10 ^ bytes.length := by positivity
  unfold strtol
  generalize (text bytes).dropWhile isSpace = rest at short
  dsimp only
  split
  · rename_i rest
    have bound := value rest ((Nat.le_succ _).trans short)
    zify at bound
    rw [abs_lt]
    constructor <;> omega
  · rename_i rest
    have bound := value rest ((Nat.le_succ _).trans short)
    zify at bound
    rw [abs_lt]
    constructor <;> omega
  · have bound := value rest short
    zify at bound
    rw [abs_lt]
    constructor <;> omega

/-- Up to nine digits fit into an `int`. -/
theorem atoi_eq_strtol {bytes : List UInt8} (few : bytes.length ≤ 9) :
    atoi bytes = strtol bytes := by
  have bound := abs_lt.mp (abs_strtol_lt bytes)
  have small : (10 : Int) ^ bytes.length ≤ 10 ^ 9 := by
    exact_mod_cast Nat.pow_le_pow_right (by decide) few
  exact toInt32_eq (by omega) (by omega)

theorem abs_atoi_lt {bytes : List UInt8} (few : bytes.length ≤ 9) :
    |atoi bytes| < 10 ^ bytes.length := by
  rw [atoi_eq_strtol few]
  exact abs_strtol_lt bytes

/-! ## Texts put together -/

section Together

variable {α : Type} {f g : α → List UInt8} {l : List α}

theorem length_flatMap_le (le : ∀ item ∈ l, (g item).length ≤ (f item).length) :
    (l.flatMap g).length ≤ (l.flatMap f).length := by
  induction l with
  | nil => exact Nat.le_refl 0
  | cons item l ih =>
      rw [List.forall_mem_cons] at le
      rw [List.flatMap_cons, List.flatMap_cons, List.length_append, List.length_append]
      exact Nat.add_le_add le.1 (ih le.2)

/-- When no text is shorter than its counterpart, all of them have to be the same. -/
theorem flatMap_eq_flatMap_iff (le : ∀ item ∈ l, (g item).length ≤ (f item).length) :
    l.flatMap f = l.flatMap g ↔ ∀ item ∈ l, f item = g item := by
  induction l with
  | nil => simp
  | cons item l ih =>
      rw [List.forall_mem_cons] at le ⊢
      rw [List.flatMap_cons, List.flatMap_cons, ← ih le.2]
      constructor
      · intro same
        have lengths := congrArg List.length same
        have later := length_flatMap_le le.2
        rw [List.length_append, List.length_append] at lengths
        exact List.append_inj same (by omega)
      · rintro ⟨first, later⟩
        rw [first, later]

end Together

end FrameCode.CText
