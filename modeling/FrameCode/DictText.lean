import FrameCode.DictMap

/-!
# Numbers of a dictionary as text

`GetDictString` prints a number and the numeric getters parse a string.  The parsers read
signed 64-bit numbers, so exactly the upper half of the unsigned 64-bit types does not survive
the way through a string.
-/

namespace FrameCode.Beai3Dict

open OpenAddressing ImTypes ImHashtable ImSerialize MachineInt CText

/-! ## Printing and parsing -/

section Numbers

variable {type : NumType}

/-- The bits of an integer type are determined by the number they stand for. -/
theorem ofInt_integerValue (value : BitVec type.bits) :
    BitVec.ofInt type.bits (integerValue type value) = value := by
  unfold integerValue
  split
  · exact BitVec.ofInt_toInt
  · rw [BitVec.ofInt_natCast, BitVec.ofNat_toNat, BitVec.setWidth_eq]

/-- The low bits of an `int` are those of the number it was cut from. -/
theorem ofInt_toInt32 {width : Nat} (narrow : width ≤ 32) (n : Int) :
    BitVec.ofInt width (toInt32 n) = BitVec.ofInt width n := by
  apply BitVec.eq_of_toInt_eq
  rw [BitVec.toInt_ofInt, BitVec.toInt_ofInt, toInt32]
  have wider : 4294967296 = 2 ^ 32 := by norm_num
  rw [wider]
  exact Int.bmod_bmod_of_dvd (Nat.pow_dvd_pow 2 narrow)

/-- A value that the getter of its type does not read back from its text: the upper half of
an unsigned 64-bit type. -/
def Clamped (type : NumType) (value : BitVec type.bits) : Prop :=
  (type = .ulong ∨ type = .ulonglong) ∧ 9223372036854775808 ≤ value.toNat

theorem integerValue_range (integer : isFloating type = false) (value : BitVec type.bits) :
    -9223372036854775808 ≤ integerValue type value ∧
      integerValue type value < 18446744073709551616 ∧
      (¬ Clamped type value → integerValue type value < 9223372036854775808) := by
  have signedLow : -2 ^ type.bits ≤ 2 * value.toInt := BitVec.le_two_mul_toInt
  have signedHigh : 2 * value.toInt < 2 ^ type.bits := BitVec.two_mul_toInt_lt
  have unsigned := value.isLt
  cases type
  case float | double | longdouble => cases integer
  all_goals
    norm_num only [NumType.bits] at signedLow signedHigh unsigned
    simp only [integerValue, isSigned, Clamped, if_true, Bool.false_eq_true, if_false,
      reduceCtorEq, or_false, true_and, or_true, not_le]
    omega

/-- What the getter of an integer type reads from the text of a value. -/
theorem parseNum_decimal (floating : Floating) (integer : isFloating type = false)
    (value : BitVec type.bits) (rest : List UInt8) :
    parseNum floating type (decimal (integerValue type value) ++ 0 :: rest) =
      BitVec.ofInt type.bits (clampLong (integerValue type value)) := by
  cases type
  case float | double | longdouble => cases integer
  case short | int | ushort | uint =>
    simp only [parseNum, atoi, strtol_decimal]
    exact ofInt_toInt32 (by decide) _
  case long | ulong => simp only [parseNum, atol, strtol_decimal]
  case longlong | ulonglong => simp only [parseNum, atoll, strtol_decimal]

theorem ofInt_clampLong_iff (integer : isFloating type = false) (value : BitVec type.bits) :
    BitVec.ofInt type.bits (clampLong (integerValue type value)) = value ↔
      ¬ Clamped type value := by
  obtain ⟨low, high, lower⟩ := integerValue_range integer value
  constructor
  · rintro same ⟨wide, large⟩
    have clamped : clampLong (value.toNat : Int) = 9223372036854775807 := by
      unfold clampLong
      omega
    rcases wide with rfl | rfl
    all_goals
      have number : integerValue _ value = value.toNat := rfl
      rw [number, clamped] at same
      have cut := congrArg BitVec.toNat same
      rw [show BitVec.toNat (BitVec.ofInt _ 9223372036854775807) = 9223372036854775807 from rfl]
        at cut
      omega
  · intro small
    have inRange : clampLong (integerValue type value) = integerValue type value := by
      have := lower small
      unfold clampLong
      omega
    rw [inRange, ofInt_integerValue]

/-- The text of a number takes at most 20 bytes. -/
theorem length_decimal_le (integer : isFloating type = false) (value : BitVec type.bits) :
    (decimal (integerValue type value)).length ≤ 20 := by
  obtain ⟨low, high, -⟩ := integerValue_range integer value
  unfold decimal
  split
  · have digits := length_decimalNat_le (n := (integerValue type value).natAbs)
      (by decide : 0 < 19) (by norm_num; omega)
    rw [List.length_cons]
    omega
  · exact length_decimalNat_le (by decide) (by norm_num; omega)

end Numbers

/-! ## Through a dictionary -/

section Getters

variable {table : ImHashtable Owned} {values : List UInt8 → Option Value} {key : List UInt8}
variable {type : NumType}

/-- `GetDictString` of a number. -/
theorem Stores.getDictString_num (stores : Stores table values) {value : BitVec type.bits}
    (known : values (cString keyMaxLength key) = some (.num type value)) (floating : Floating)
    {size : Int} (positive : 0 < size) :
    getDictString floating derefOwned table key size =
      some (some ((formatNum floating type value).take (size.toNat - 1))) := by
  obtain ⟨⟨⟨length, bucketValue⟩, keyBytes⟩, retrieved, sees⟩ := stores.retrieve known
  cases sees
  rw [getDictString, if_neg (by omega), withElement, retrieved]
  rfl

/-- A numeric getter of a string. -/
theorem Stores.getDictNum_string (stores : Stores table values) {bytes : List UInt8}
    (known : values (cString keyMaxLength key) = some (.string bytes)) (floating : Floating)
    (target : NumType) :
    getDictNum floating derefOwned table key target =
      some (some (parseNum floating target (text bytes ++ [0]))) := by
  obtain ⟨⟨⟨length, bucketValue⟩, keyBytes⟩, retrieved, sees⟩ := stores.retrieve known
  have content := stringBytes_of_sees sees
  rw [getDictNum, withElement, retrieved, Option.bind_some]
  cases sees with
  | string short => rfl
  | externalString => rfl
  | attachedString found inside => simp [answerNum, content]

/-- The way of a number through its text: every call ends, and the getter answers the number
that the parser makes of the text, before and after serialisation. -/
theorem Stores.through_text (stores : Stores table values) (few : table.inuse + 1 < 499991)
    (integer : isFloating type = false) (value : BitVec type.bits) (key other : List UInt8)
    (last : UInt8) {size : Int} (large : 21 ≤ size) (fuel : Nat) :
    ∃ first second third code code' code'',
      setDictNum owned type table key value = some (first, code) ∧
      setDictString owned last first other (decimal (integerValue type value)) =
        some (second, code') ∧
      serializeDict fuel second = some (third, code'') ∧
      ∀ floating, getDictString floating derefOwned first key size =
          some (some (decimal (integerValue type value))) ∧
        ∀ dict ∈ [second, third], getDictNum floating derefOwned dict other type =
          some (some (BitVec.ofInt type.bits (clampLong (integerValue type value)))) := by
  obtain ⟨first, code, stored, firstInuse, firstStores⟩ :=
    stores.set key 0 (show Value.Storable (.num type value) from trivial) (by omega)
  have short := length_decimal_le integer value
  have whole : text (decimal (integerValue type value)) = decimal (integerValue type value) :=
    List.takeWhile_eq_self_iff.mpr fun byte member =>
      bne_iff_ne.mpr (decimal_ne_zero _ byte member)
  have storable : (Value.string (decimal (integerValue type value))).Storable := by
    simp only [Value.Storable, whole, objectLimit]
    omega
  obtain ⟨second, code', stored', -, secondStores⟩ :=
    firstStores.set other last storable (by omega)
  obtain ⟨third, code'', serialized, thirdStores⟩ := secondStores.serialize fuel
  refine ⟨first, second, third, code, code', code'', stored, stored', serialized,
    fun floating => ⟨?_, fun dict member => ?_⟩⟩
  · rw [firstStores.getDictString_num (if_pos rfl) floating (by omega), formatNum,
      if_neg (by simp [integer]), List.take_of_length_le (by omega)]
  · have parsed {dict : ImHashtable Owned} {values : List UInt8 → Option Value}
        (dictStores : Stores dict values) (known : values (cString keyMaxLength other) =
          some (.string (decimal (integerValue type value)))) :
        getDictNum floating derefOwned dict other type =
          some (some (BitVec.ofInt type.bits (clampLong (integerValue type value)))) := by
      rw [dictStores.getDictNum_string known, whole, parseNum_decimal floating integer]
    rcases List.mem_pair.mp member with rfl | rfl
    · exact parsed secondStores (if_pos rfl)
    · exact parsed thirdStores (if_pos rfl)

end Getters

/-- A number of an integer type survives the way through its text, before and after
serialisation, exactly when it is not in the upper half of an unsigned 64-bit type. -/
theorem text_round_trip_iff {capacity : Int} {calls : List DictCall} {table : ImHashtable Owned}
    (run : Run capacity calls table) (few : getDictNElement table + 1 < 499991)
    {type : NumType} (integer : isFloating type = false) (value : BitVec type.bits)
    (key other : List UInt8) (last : UInt8) {size : Int} (large : 21 ≤ size) (fuel : Nat) :
    ∃ first printed second third code code' code'',
      setDictNum owned type table key value = some (first, code) ∧
      setDictString owned last first other printed = some (second, code') ∧
      serializeDict fuel second = some (third, code'') ∧
      ∀ floating, getDictString floating derefOwned first key size = some (some printed) ∧
        ((getDictNum floating derefOwned second other type = some (some value) ∧
            getDictNum floating derefOwned third other type = some (some value)) ↔
          ¬ Clamped type value) := by
  obtain ⟨first, second, third, code, code', code'', stored, stored', serialized, answers⟩ :=
    run.stores.through_text few integer value key other last large fuel
  refine ⟨first, _, second, third, code, code', code'', stored, stored', serialized,
    fun floating => ⟨(answers floating).1, ?_⟩⟩
  rw [(answers floating).2 second (by simp), (answers floating).2 third (by simp),
    Option.some.injEq, Option.some.injEq, and_self]
  exact ofInt_clampLong_iff integer value

/-- The smallest `int` in a new dictionary. -/
theorem text_round_trip_int :
    ∃ first printed second third code code' code'',
      setDictNum owned .int (imInitializeHashtable 0) [107] (-2147483648#32) =
        some (first, code) ∧
      setDictString owned 0 first [107] printed = some (second, code') ∧
      serializeDict 0 second = some (third, code'') ∧
      ∀ floating, getDictString floating derefOwned first [107] 21 = some (some printed) ∧
        getDictNum floating derefOwned second [107] .int = some (some (-2147483648#32)) ∧
        getDictNum floating derefOwned third [107] .int = some (some (-2147483648#32)) := by
  have begin : Run 0 [] (imInitializeHashtable 0) := .init rfl
  obtain ⟨first, printed, second, third, code, code', code'', stored, stored', serialized,
    answers⟩ := text_round_trip_iff begin (by simp [getDictNElement, imInitializeHashtable,
      Table.create]) (show isFloating .int = false from rfl) (-2147483648#32) [107] [107] 0
      (le_refl 21) 0
  refine ⟨first, printed, second, third, code, code', code'', stored, stored', serialized,
    fun floating => ⟨(answers floating).1, (answers floating).2.mpr ?_⟩⟩
  rintro ⟨wide | wide, -⟩ <;> cases wide

/-- The number 2⁶³ as an `unsigned long` comes back as 2⁶³ - 1. -/
theorem not_text_round_trip :
    ∃ first printed second code code',
      setDictNum owned .ulong (imInitializeHashtable 0) [107] 9223372036854775808#64 =
        some (first, code) ∧
      setDictString owned 0 first [107] printed = some (second, code') ∧
      ∀ floating, getDictString floating derefOwned first [107] 21 = some (some printed) ∧
        getDictNum floating derefOwned second [107] .ulong =
          some (some 9223372036854775807#64) ∧
        getDictNum floating derefOwned second [107] .ulong ≠
          some (some 9223372036854775808#64) := by
  have begin : Run 0 [] (imInitializeHashtable 0) := .init rfl
  obtain ⟨first, second, third, code, code', -, stored, stored', -, answers⟩ :=
    begin.stores.through_text (by simp [imInitializeHashtable, Table.create])
      (show isFloating .ulong = false from rfl) 9223372036854775808#64 [107] [107] 0 (le_refl 21) 0
  refine ⟨first, _, second, code, code', stored, stored', fun floating =>
    ⟨(answers floating).1, ?_⟩⟩
  have answer := (answers floating).2 second (by simp)
  have clamped : BitVec.ofInt NumType.ulong.bits (clampLong (integerValue .ulong
      9223372036854775808#64)) = 9223372036854775807#64 := rfl
  have different : 9223372036854775807#64 ≠ 9223372036854775808#64 := by decide
  rw [clamped] at answer
  rw [answer]
  exact ⟨rfl, fun same => different (Option.some.inj (Option.some.inj same))⟩

end FrameCode.Beai3Dict
