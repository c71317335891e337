import FrameCode.LabelledRuns
import FrameCode.LibString
import FrameCode.LineReading

/-!
# Lookups in a configuration file

`lib_conf_file.c` reads a file turn by turn with `fgets` into a buffer of 4096 bytes.  Each
turn first frees the line of the turn before; a line that did not end with a newline leaves
the counter of the turns of this line above zero, and the next turn then wants to extend the
line that has just been freed.

All allocations succeed.  A lookup without a result is one that uses a null pointer or
reads before the start of a buffer.
-/

namespace FrameCode.LibConfFile

open CText LibString LineReading

/-! ## The lookups -/

/-- The returned `int` and what has been copied to `sDst_String`. -/
structure Result where
  code : Int
  value : Option (List UInt8)
deriving DecidableEq

/-- After a turn a loop goes on, with `iCount_ReadLine`, or the lookup has returned. -/
inductive Progress (φ : Type)
  | again (phase : φ) (iCountReadLine : Nat)
  | returned (result : Result)
deriving DecidableEq

/-- `AddStr_Malloc`. -/
def addStrMalloc (added : List UInt8) : Option (List UInt8) := some added

/-- `AddStr_Realloc`, which measures the old string first.  It appends to the old address,
which is right if the block has not moved. -/
def addStrRealloc (old : Option (List UInt8)) (added : List UInt8) : Option (List UInt8) :=
  old.map (· ++ added)

/-- `AddMem_For_AddString`. -/
def addMemForAddString (iCountReadLine : Nat) (source : List UInt8)
    (pPointAddMem : Option (List UInt8)) : Option (List UInt8) :=
  if iCountReadLine = 1 then addStrMalloc source else addStrRealloc pPointAddMem source

/-- The contents of `sString_ReadLine` after `fgets` has returned `pRet`; at the end of the
file the buffer is empty. -/
def readLine (pRet : Option (List UInt8)) : List UInt8 := text (pRet.getD [])

section Turns

variable {φ : Type}

/-- A turn of a loop that looks for the key, after `fgets`.  `behind` is the function that
cuts out the value, and `FreeMem_For_AddString` has left a null pointer. -/
def keyTurn (behind : List UInt8 → Option (List UInt8)) (sKey : List UInt8) (phase : φ)
    (iCountReadLine : Nat) (pRet : Option (List UInt8)) : Option (Progress φ) := do
  let pPointAddMem ← addMemForAddString iCountReadLine (readLine pRet) none
  match getStringBeforeDhQdKg pPointAddMem with
  | none =>
      if pRet = none then some (.returned ⟨-1, none⟩)
      else
        let last ← (readLine pRet).getLast?
        some (.again phase (if last = 10 then 0 else iCountReadLine))
  | some sStingKey =>
      let last ← (readLine pRet).getLast?
      if last = 10 then
        if sStingKey = text sKey then
          match behind pPointAddMem with
          | none => some (.returned ⟨-1, none⟩)
          | some sStingValue => some (.returned ⟨0, some sStingValue⟩)
        else some (.again phase 0)
      else some (.again phase iCountReadLine)

inductive Phase
  | field
  | key
deriving DecidableEq

/-- A turn of the loop that looks for the section. -/
def fieldTurn (sField : List UInt8) (iCountReadLine : Nat) (pRet : Option (List UInt8)) :
    Option (Progress Phase) := do
  let pPointAddMem ← addMemForAddString iCountReadLine (readLine pRet) none
  match getStringBetweenZkh pPointAddMem with
  | none =>
      if pRet = none then some (.returned ⟨-1, none⟩)
      else
        let last ← (readLine pRet).getLast?
        some (.again .field (if last = 10 then 0 else iCountReadLine))
  | some sStingField =>
      let last ← (readLine pRet).getLast?
      if last = 10 then
        some (.again (if sStingField = text sField then .key else .field) 0)
      else some (.again .field iCountReadLine)

/-- The two nested loops of `Get_ValuseString_ByFieldKey_InConfFile`.  The inner one looks
for the next section before it adds the line. -/
def fieldKeyTurn (sField sKey : List UInt8) (phase : Phase) (iCountReadLine : Nat)
    (pRet : Option (List UInt8)) : Option (Progress Phase) :=
  match phase with
  | .field => fieldTurn sField iCountReadLine pRet
  | .key =>
      if (getStringBetweenZkh (readLine pRet)).isSome then some (.returned ⟨-3, none⟩)
      else keyTurn getStringBehindDhQdKgHh sKey .key iCountReadLine pRet

variable (turn : φ → Nat → Option (List UInt8) → Option (Progress φ))

/-- A turn on a piece of the file. -/
def readStep : Progress φ → List UInt8 → Option (Progress φ)
  | .again phase iCountReadLine, piece => turn phase (iCountReadLine + 1) (some piece)
  | .returned result, _ => some (.returned result)

/-- A turn at the end of the file.  It never goes on, since it has read nothing
(`keyTurn_end`, `fieldTurn_end`). -/
def endStep : Progress φ → Option Result
  | .again phase iCountReadLine =>
      match turn phase (iCountReadLine + 1) none with
      | some (.returned result) => some result
      | _ => none
  | .returned result => some result

/-- The result of a lookup on the pieces of a file. -/
def lookup (phase : φ) (pieces : List (List UInt8)) : Option Result :=
  (run (readStep turn) (.again phase 0) pieces).bind (endStep turn)

end Turns

/-- The results of `fgets` on a buffer of 4096 bytes, until the end of the file. -/
def fgets (file : List UInt8) : List (List UInt8) := pieces 10 4095 file

/-- `Get_ValuseString_ByKey_InConfFile`; a file that cannot be opened is `none`. -/
def getValuseStringByKeyInConfFile (file : Option (List UInt8)) (sKey : List UInt8) :
    Option Result :=
  match file with
  | none => some ⟨-1, none⟩
  | some file => lookup (keyTurn getStringBehindDhQdKg sKey) () (fgets file)

/-- `Get_ValuseString_ByFieldKey_InConfFile`. -/
def getValuseStringByFieldKeyInConfFile (file : Option (List UInt8)) (sField sKey : List UInt8) :
    Option Result :=
  match file with
  | none => some ⟨-1, none⟩
  | some file => lookup (fieldKeyTurn sField sKey) .field (fgets file)

/-! ## Single turns -/

section Lemmas

variable {φ : Type} {phase : φ} {behind : List UInt8 → Option (List UInt8)}
variable {sField sKey piece : List UInt8} {count : Nat}

theorem readLine_some (clean : 0 ∉ piece) : readLine (some piece) = piece := by
  have passes : ∀ byte ∈ piece, (byte != 0) = true := fun byte member => by
    simpa using fun zero : byte = 0 => clean (zero ▸ member)
  exact List.takeWhile_eq_self_iff.mpr passes

@[simp] theorem readLine_none : readLine none = [] := rfl

/-- The line has been freed: only the first turn of a line can add to it. -/
theorem addMem_eq (count : Nat) (source : List UInt8) :
    addMemForAddString count source none = if count = 1 then some source else none := rfl

/-- The line assigns to the key. -/
def HasKey (sKey line : List UInt8) : Prop := getStringBeforeDhQdKg line = some (text sKey)

instance (sKey line : List UInt8) : Decidable (HasKey sKey line) :=
  inferInstanceAs (Decidable (_ = _))

/-- The line is the header of the section. -/
def IsHeader (sField line : List UInt8) : Prop := getStringBetweenZkh line = some (text sField)

instance (sField line : List UInt8) : Decidable (IsHeader sField line) :=
  inferInstanceAs (Decidable (_ = _))

/-- The line has brackets. -/
def HasBrackets (line : List UInt8) : Prop := (getStringBetweenZkh line).isSome

instance (line : List UInt8) : Decidable (HasBrackets line) := inferInstanceAs (Decidable (_ = _))

/-- The piece ends with a newline. -/
def Whole (piece : List UInt8) : Prop := piece.getLast? = some 10

instance (piece : List UInt8) : Decidable (Whole piece) := inferInstanceAs (Decidable (_ = _))

/-- Every assignment has a value. -/
def CutsValue (behind : List UInt8 → Option (List UInt8)) : Prop :=
  ∀ line key, getStringBeforeDhQdKg line = some key → (behind line).isSome

theorem keyTurn_whole (cuts : CutsValue behind) (clean : 0 ∉ piece) (whole : Whole piece) :
    keyTurn behind sKey phase 1 (some piece) =
      some (if HasKey sKey piece then .returned ⟨0, behind piece⟩ else .again phase 0) := by
  unfold Whole at whole
  simp only [keyTurn, readLine_some clean, addMem_eq, if_true, Option.bind_eq_bind,
    Option.bind_some, whole]
  by_cases has : HasKey sKey piece
  · obtain ⟨value, valueEq⟩ := Option.isSome_iff_exists.mp (cuts piece _ has)
    rw [if_pos has]
    unfold HasKey at has
    simp [has, valueEq]
  · rw [if_neg has]
    cases found : getStringBeforeDhQdKg piece with
    | none => simp
    | some key =>
        have other : key ≠ text sKey := fun same => has (by rw [HasKey, found, same])
        simp [other]

theorem exists_last_of_torn (nonempty : piece ≠ []) (torn : ¬ Whole piece) :
    ∃ last, piece.getLast? = some last ∧ last ≠ 10 := by
  obtain ⟨last, lastEq⟩ := Option.ne_none_iff_exists'.mp (mt List.getLast?_eq_none_iff.mp nonempty)
  exact ⟨last, lastEq, fun newline => torn (by rw [Whole, lastEq, newline])⟩

theorem keyTurn_torn (clean : 0 ∉ piece) (nonempty : piece ≠ []) (torn : ¬ Whole piece) :
    keyTurn behind sKey phase 1 (some piece) = some (.again phase 1) := by
  obtain ⟨last, lastEq, other⟩ := exists_last_of_torn nonempty torn
  simp only [keyTurn, readLine_some clean, addMem_eq, if_true, Option.bind_eq_bind,
    Option.bind_some, lastEq]
  cases getStringBeforeDhQdKg piece with
  | none => simp [other]
  | some key => simp [other]

/-- A second turn on the same line uses the null pointer. -/
theorem keyTurn_late (late : count ≠ 1) (pRet : Option (List UInt8)) :
    keyTurn behind sKey phase count pRet = none := by
  simp [keyTurn, addMem_eq, late]

theorem keyTurn_end : keyTurn behind sKey phase 1 none = some (.returned ⟨-1, none⟩) := rfl

theorem fieldTurn_whole (clean : 0 ∉ piece) (whole : Whole piece) :
    fieldTurn sField 1 (some piece) =
      some (.again (if IsHeader sField piece then .key else .field) 0) := by
  unfold Whole at whole
  simp only [fieldTurn, readLine_some clean, addMem_eq, if_true, Option.bind_eq_bind,
    Option.bind_some, whole]
  by_cases header : IsHeader sField piece
  · rw [if_pos header]
    unfold IsHeader at header
    simp [header]
  · rw [if_neg header]
    cases found : getStringBetweenZkh piece with
    | none => simp
    | some field =>
        have other : field ≠ text sField := fun same => header (by rw [IsHeader, found, same])
        simp [other]

theorem fieldTurn_torn (clean : 0 ∉ piece) (nonempty : piece ≠ []) (torn : ¬ Whole piece) :
    fieldTurn sField 1 (some piece) = some (.again .field 1) := by
  obtain ⟨last, lastEq, other⟩ := exists_last_of_torn nonempty torn
  simp only [fieldTurn, readLine_some clean, addMem_eq, if_true, Option.bind_eq_bind,
    Option.bind_some, lastEq]
  cases getStringBetweenZkh piece with
  | none => simp [other]
  | some field => simp [other]

theorem fieldTurn_late (late : count ≠ 1) (pRet : Option (List UInt8)) :
    fieldTurn sField count pRet = none := by
  simp [fieldTurn, addMem_eq, late]

theorem fieldTurn_end : fieldTurn sField 1 none = some (.returned ⟨-1, none⟩) := rfl

/-! ## Runs over lines -/

theorem run_returned (turn : φ → Nat → Option (List UInt8) → Option (Progress φ))
    (result : Result) (pieces : List (List UInt8)) :
    run (readStep turn) (.returned result) pieces = some (.returned result) := by
  induction pieces with
  | nil => rfl
  | cons piece rest ih => exact ih

/-- A loop that looks for the key and returns `-3` at a closing line. -/
def KeyPhase (turn : φ → Nat → Option (List UInt8) → Option (Progress φ)) (phase : φ)
    (closes : List UInt8 → Prop) [DecidablePred closes]
    (behind : List UInt8 → Option (List UInt8)) (sKey : List UInt8) : Prop :=
  ∀ count pRet, turn phase count pRet =
    if closes (readLine pRet) then some (.returned ⟨-3, none⟩)
    else keyTurn behind sKey phase count pRet

theorem keyPhase_byKey : KeyPhase (keyTurn behind sKey) phase (fun _ => False) behind sKey :=
  fun _ _ => (if_neg id).symm

theorem keyPhase_byFieldKey :
    KeyPhase (fieldKeyTurn sField sKey) .key HasBrackets getStringBehindDhQdKgHh sKey :=
  fun _ _ => rfl

variable {turn : φ → Nat → Option (List UInt8) → Option (Progress φ)}
variable {closes : List UInt8 → Prop} [DecidablePred closes] {lines : List (List UInt8)}

/-- What a key loop returns at a line that ends it. -/
def keyResult (closes : List UInt8 → Prop) [DecidablePred closes]
    (behind : List UInt8 → Option (List UInt8)) (line : List UInt8) : Result :=
  if closes line then ⟨-3, none⟩ else ⟨0, behind line⟩

/-- A key loop passes every line until one closes the section or has the key. -/
theorem run_key (key : KeyPhase turn phase closes behind sKey) (cuts : CutsValue behind)
    (lawful : ∀ line ∈ lines, 0 ∉ line ∧ Whole line) :
    run (readStep turn) (.again phase 0) lines =
      some (match lines.find? fun line => decide (closes line ∨ HasKey sKey line) with
        | none => .again phase 0
        | some line => .returned (keyResult closes behind line)) := by
  induction lines with
  | nil => rfl
  | cons line rest ih =>
      obtain ⟨clean, whole⟩ := lawful line (by simp)
      have ihRest := ih fun other member => lawful other (by simp [member])
      have first : readStep turn (.again phase 0) line =
          if closes line then some (.returned ⟨-3, none⟩)
          else keyTurn behind sKey phase 1 (some line) := by
        rw [readStep, key, readLine_some clean]
      simp only [run, first]
      by_cases closing : closes line
      · simp [closing, run_returned, keyResult]
      · rw [if_neg closing, keyTurn_whole cuts clean whole]
        by_cases has : HasKey sKey line
        · simp [closing, has, run_returned, keyResult]
        · simp [closing, has, ihRest]

/-- The section loop passes every line until the header of the section. -/
theorem run_field (lawful : ∀ line ∈ lines, 0 ∉ line ∧ Whole line) :
    run (readStep (fieldKeyTurn sField sKey)) (.again .field 0) lines =
      match lines.dropWhile fun line => decide (¬ IsHeader sField line) with
      | [] => some (.again .field 0)
      | _ :: after => run (readStep (fieldKeyTurn sField sKey)) (.again .key 0) after := by
  induction lines with
  | nil => rfl
  | cons line rest ih =>
      obtain ⟨clean, whole⟩ := lawful line (by simp)
      have ihRest := ih fun other member => lawful other (by simp [member])
      have first : readStep (fieldKeyTurn sField sKey) (.again .field 0) line =
          some (.again (if IsHeader sField line then .key else .field) 0) :=
        fieldTurn_whole clean whole
      simp only [run, first, Option.bind_some]
      by_cases header : IsHeader sField line
      · simp [header]
      · simp [header, ihRest]

theorem lookup_key (key : KeyPhase turn phase closes behind sKey) (cuts : CutsValue behind)
    (open_nil : ¬ closes []) (lawful : ∀ line ∈ lines, 0 ∉ line ∧ Whole line) :
    lookup turn phase lines =
      some (match lines.find? fun line => decide (closes line ∨ HasKey sKey line) with
        | none => ⟨-1, none⟩
        | some line => keyResult closes behind line) := by
  rw [lookup, run_key key cuts lawful]
  split
  · simp [endStep, key 1 none, open_nil, keyTurn_end]
  · rfl

theorem cutsValue_qdKgHh : CutsValue getStringBehindDhQdKgHh := by
  intro line key found
  obtain ⟨name, value, assigned, -⟩ := getStringBeforeDhQdKg_eq_some_iff.mp found
  rw [getStringBehindDhQdKgHh_eq assigned]
  rfl

theorem cutsValue_qdKg : CutsValue getStringBehindDhQdKg := by
  intro line key found
  obtain ⟨name, value, assigned, -⟩ := getStringBeforeDhQdKg_eq_some_iff.mp found
  rw [getStringBehindDhQdKg_eq assigned]
  rfl

end Lemmas

/-! ## Files of lines -/

/-- A line that `fgets` reads in one turn. -/
structure ConfLine where
  content : List UInt8
  no_newline : 10 ∉ content
  no_nul : 0 ∉ content
  short : content.length < 4095

def ConfLine.bytes (line : ConfLine) : List UInt8 := line.content ++ [10]

/-- A file of lines that all end with a newline. -/
def confFile (lines : List ConfLine) : List UInt8 := lines.flatMap ConfLine.bytes

theorem fgets_confFile (lines : List ConfLine) :
    fgets (confFile lines) = lines.map ConfLine.bytes := by
  have lawful : ∀ line ∈ lines.map ConfLine.content, 10 ∉ line ∧ line.length < 4095 := by
    intro line member
    obtain ⟨source, -, rfl⟩ := List.mem_map.mp member
    exact ⟨source.no_newline, source.short⟩
  have read := pieces_lines lawful
  rw [List.flatMap_map, List.map_map] at read
  exact read

theorem confLine_lawful {lines : List ConfLine} {line : List UInt8}
    (member : line ∈ lines.map ConfLine.bytes) : 0 ∉ line ∧ Whole line := by
  obtain ⟨source, -, rfl⟩ := List.mem_map.mp member
  refine ⟨?_, ?_⟩
  · simp [ConfLine.bytes, source.no_nul]
  · simp [Whole, ConfLine.bytes]

/-! ### The specification of a section lookup -/

/-- The lines behind the first header of the section. -/
def SectionBody (field : List UInt8) (lines body : List (List UInt8)) : Prop :=
  ∃ before header, lines = before ++ header :: body ∧ Bracketed header field ∧
    ∀ line ∈ before, ¬ Bracketed line field

/-- The line gives the value to the key. -/
def Assigns (line key value : List UInt8) : Prop :=
  ∃ name rest, Assignment line name rest ∧ Trimmed name key ∧
    Trimmed (rest.filter (· != 10)) value

/-- The line neither has brackets nor gives a value to the key. -/
def Passes (key line : List UInt8) : Prop :=
  (¬ ∃ inner, Bracketed line inner) ∧ ¬ ∃ value, Assigns line key value

/-- The first line of the section that gives a value to the key stands before the next line
with brackets. -/
def ValueFound (field key value : List UInt8) (lines : List (List UInt8)) : Prop :=
  ∃ middle line rest, SectionBody field lines (middle ++ line :: rest) ∧
    (∀ other ∈ middle, Passes key other) ∧ (¬ ∃ inner, Bracketed line inner) ∧
    Assigns line key value

/-- The section is followed by a line with brackets before a line gives a value to the key. -/
def SectionCloses (field key : List UInt8) (lines : List (List UInt8)) : Prop :=
  ∃ middle line rest, SectionBody field lines (middle ++ line :: rest) ∧
    (∀ other ∈ middle, Passes key other) ∧ ∃ inner, Bracketed line inner

/-- The file ends without the section, or within the section. -/
def FileEnds (field key : List UInt8) (lines : List (List UInt8)) : Prop :=
  (∀ line ∈ lines, ¬ Bracketed line field) ∨
    ∃ body, SectionBody field lines body ∧ ∀ line ∈ body, Passes key line

section Specification

variable {sField sKey line : List UInt8} {lines body : List (List UInt8)}

theorem isHeader_iff : IsHeader sField line ↔ Bracketed line (text sField) :=
  getStringBetweenZkh_eq_some_iff

theorem hasBrackets_iff : HasBrackets line ↔ ∃ inner, Bracketed line inner :=
  getStringBetweenZkh_isSome_iff

theorem assigns_iff {key value : List UInt8} :
    Assigns line key value ↔
      getStringBeforeDhQdKg line = some key ∧ getStringBehindDhQdKgHh line = some value := by
  rw [getStringBeforeDhQdKg_eq_some_iff]
  constructor
  · rintro ⟨name, rest, assigned, trimmedName, trimmedRest⟩
    rw [getStringBehindDhQdKgHh_eq assigned, trimmed_iff.mp trimmedRest]
    exact ⟨⟨name, rest, assigned, trimmedName⟩, rfl⟩
  · rintro ⟨⟨name, rest, assigned, trimmedName⟩, cut⟩
    rw [getStringBehindDhQdKgHh_eq assigned, Option.some.injEq] at cut
    exact ⟨name, rest, assigned, trimmedName, trimmed_iff.mpr cut⟩

theorem hasKey_iff : HasKey sKey line ↔ ∃ value, Assigns line (text sKey) value := by
  simp only [assigns_iff, exists_and_left, HasKey]
  exact ⟨fun has => ⟨has, Option.isSome_iff_exists.mp (cutsValue_qdKgHh line _ has)⟩, And.left⟩

theorem passes_iff : Passes (text sKey) line ↔ ¬ (HasBrackets line ∨ HasKey sKey line) := by
  rw [hasBrackets_iff, hasKey_iff, not_or, Passes]

/-- At the header of the section the search for the key begins. -/
theorem run_section (lawful : ∀ line ∈ lines, 0 ∉ line ∧ Whole line)
    (found : SectionBody (text sField) lines body) :
    run (readStep (fieldKeyTurn sField sKey)) (.again .field 0) lines =
      run (readStep (fieldKeyTurn sField sKey)) (.again .key 0) body := by
  obtain ⟨before, header, rfl, named, first⟩ := found
  have passed : ∀ line ∈ before, decide (¬ IsHeader sField line) = true := fun line member =>
    decide_eq_true (mt isHeader_iff.mp (first line member))
  rw [run_field lawful, List.dropWhile_append_of_pos passed]
  simp [isHeader_iff.mpr named]

theorem run_no_section (lawful : ∀ line ∈ lines, 0 ∉ line ∧ Whole line)
    (absent : ∀ line ∈ lines, ¬ Bracketed line (text sField)) :
    run (readStep (fieldKeyTurn sField sKey)) (.again .field 0) lines =
      some (.again .field 0) := by
  have passed : ∀ line ∈ lines, decide (¬ IsHeader sField line) = true := fun line member =>
    decide_eq_true (mt isHeader_iff.mp (absent line member))
  rw [run_field lawful, List.dropWhile_eq_nil_iff.mpr passed]

theorem SectionBody.subset (found : SectionBody (text sField) lines body) :
    ∀ line ∈ body, line ∈ lines := by
  obtain ⟨before, header, rfl, -⟩ := found
  intro line member
  simp [member]

/-- Where the lookup in a section ends. -/
theorem lookup_body (lawful : ∀ line ∈ body, 0 ∉ line ∧ Whole line) :
    lookup (fieldKeyTurn sField sKey) .key body =
      some (match body.find? fun line => decide (HasBrackets line ∨ HasKey sKey line) with
        | none => ⟨-1, none⟩
        | some line => keyResult HasBrackets getStringBehindDhQdKgHh line) :=
  lookup_key keyPhase_byFieldKey cutsValue_qdKgHh (by decide) lawful

theorem lookup_first {middle rest : List (List UInt8)}
    (lawful : ∀ line ∈ lines, 0 ∉ line ∧ Whole line)
    (found : SectionBody (text sField) lines (middle ++ line :: rest))
    (passed : ∀ other ∈ middle, Passes (text sKey) other)
    (ends : HasBrackets line ∨ HasKey sKey line) :
    lookup (fieldKeyTurn sField sKey) .field lines =
      some (keyResult HasBrackets getStringBehindDhQdKgHh line) := by
  have first : (middle ++ line :: rest).find?
      (fun line => decide (HasBrackets line ∨ HasKey sKey line)) = some line := by
    refine List.find?_eq_some_iff_append.mpr ⟨decide_eq_true ends, middle, rest, rfl, ?_⟩
    intro other member
    simpa using passes_iff.mp (passed other member)
  rw [lookup, run_section lawful found, ← lookup,
    lookup_body fun line member => lawful line (found.subset line member), first]

theorem lookup_valueFound (lawful : ∀ line ∈ lines, 0 ∉ line ∧ Whole line) {value : List UInt8}
    (found : ValueFound (text sField) (text sKey) value lines) :
    lookup (fieldKeyTurn sField sKey) .field lines = some ⟨0, some value⟩ := by
  obtain ⟨middle, line, rest, inSection, passed, plain, assigns⟩ := found
  rw [lookup_first lawful inSection passed (Or.inr (hasKey_iff.mpr ⟨value, assigns⟩)), keyResult,
    if_neg (mt hasBrackets_iff.mp plain), (assigns_iff.mp assigns).2]

theorem lookup_sectionCloses (lawful : ∀ line ∈ lines, 0 ∉ line ∧ Whole line)
    (closes : SectionCloses (text sField) (text sKey) lines) :
    lookup (fieldKeyTurn sField sKey) .field lines = some ⟨-3, none⟩ := by
  obtain ⟨middle, line, rest, inSection, passed, bracketed⟩ := closes
  have brackets := hasBrackets_iff.mpr bracketed
  rw [lookup_first lawful inSection passed (Or.inl brackets), keyResult, if_pos brackets]

theorem lookup_fileEnds (lawful : ∀ line ∈ lines, 0 ∉ line ∧ Whole line)
    (ends : FileEnds (text sField) (text sKey) lines) :
    lookup (fieldKeyTurn sField sKey) .field lines = some ⟨-1, none⟩ := by
  rcases ends with absent | ⟨body, found, passed⟩
  · rw [lookup, run_no_section lawful absent]
    rfl
  · have none : body.find? (fun line => decide (HasBrackets line ∨ HasKey sKey line)) = none := by
      refine List.find?_eq_none.mpr fun line member => ?_
      simpa using passes_iff.mp (passed line member)
    rw [lookup, run_section lawful found, ← lookup,
      lookup_body fun line member => lawful line (found.subset line member), none]

/-- The first line with a property. -/
theorem exists_first {holds : List UInt8 → Prop} (found : ∃ line ∈ lines, holds line) :
    ∃ before line after, lines = before ++ line :: after ∧ holds line ∧
      ∀ other ∈ before, ¬ holds other := by
  classical
  have isSome : (lines.find? fun line => decide (holds line)).isSome := by
    simpa using found
  obtain ⟨line, first⟩ := Option.isSome_iff_exists.mp isSome
  obtain ⟨here, before, after, rfl, earlier⟩ := List.find?_eq_some_iff_append.mp first
  exact ⟨before, line, after, rfl, of_decide_eq_true here, fun other member => by
    simpa using earlier other member⟩

/-- One of the three happens. -/
theorem lookup_trichotomy (field key : List UInt8) (lines : List (List UInt8)) :
    (∃ value, ValueFound field key value lines) ∨ SectionCloses field key lines ∨
      FileEnds field key lines := by
  by_cases present : ∃ line ∈ lines, Bracketed line field
  · obtain ⟨before, header, body, rfl, named, first⟩ := exists_first present
    have inSection : SectionBody field (before ++ header :: body) body :=
      ⟨before, header, rfl, named, first⟩
    by_cases stopped : ∃ line ∈ body, ¬ Passes key line
    · obtain ⟨middle, line, rest, rfl, stops, passed⟩ := exists_first stopped
      have passes : ∀ other ∈ middle, Passes key other := fun other member =>
        not_not.mp (passed other member)
      by_cases bracketed : ∃ inner, Bracketed line inner
      · exact Or.inr (Or.inl ⟨middle, line, rest, inSection, passes, bracketed⟩)
      · obtain ⟨value, assigns⟩ : ∃ value, Assigns line key value := by
          by_contra unassigned
          exact stops ⟨bracketed, unassigned⟩
        exact Or.inl ⟨value, middle, line, rest, inSection, passes, bracketed, assigns⟩
    · refine Or.inr (Or.inr (Or.inr ⟨body, inSection, fun line member => ?_⟩))
      by_contra stops
      exact stopped ⟨line, member, stops⟩
  · refine Or.inr (Or.inr (Or.inl fun line member named => ?_))
    exact present ⟨line, member, named⟩

end Specification

/-- A lookup of a key in a section, on every file of lines that end with a newline, are
shorter than the buffer and contain no NUL: it returns `0` with the value of the first line
that assigns to the key between the first header of the section and the next line with
brackets, `-3` when such a line with brackets comes first, and `-1` when the file ends
first. -/
theorem getValuseStringByFieldKeyInConfFile_spec (lines : List ConfLine)
    (sField sKey : List UInt8) :
    ∃ result, getValuseStringByFieldKeyInConfFile (some (confFile lines)) sField sKey =
        some result ∧
      (∀ value, result = ⟨0, some value⟩ ↔
        ValueFound (text sField) (text sKey) value (lines.map ConfLine.bytes)) ∧
      (result = ⟨-3, none⟩ ↔
        SectionCloses (text sField) (text sKey) (lines.map ConfLine.bytes)) ∧
      (result = ⟨-1, none⟩ ↔ FileEnds (text sField) (text sKey) (lines.map ConfLine.bytes)) := by
  have lawful : ∀ line ∈ lines.map ConfLine.bytes, 0 ∉ line ∧ Whole line :=
    fun line member => confLine_lawful member
  have found {value : List UInt8} := @lookup_valueFound sField sKey _ lawful value
  have closes := @lookup_sectionCloses sField sKey _ lawful
  have ends := @lookup_fileEnds sField sKey _ lawful
  simp only [getValuseStringByFieldKeyInConfFile, fgets_confFile]
  rcases lookup_trichotomy (text sField) (text sKey) (lines.map ConfLine.bytes) with
    ⟨value, isFound⟩ | isClosed | isEnd
  · have resultEq := found isFound
    refine ⟨_, resultEq, fun other => ⟨?_, ?_⟩, ⟨nofun, ?_⟩, ⟨nofun, ?_⟩⟩
    · intro same
      cases same
      exact isFound
    · intro otherFound
      exact Option.some.inj (resultEq.symm.trans (found otherFound))
    · intro isClosed
      exact Option.some.inj (resultEq.symm.trans (closes isClosed))
    · intro isEnd
      exact Option.some.inj (resultEq.symm.trans (ends isEnd))
  · have resultEq := closes isClosed
    refine ⟨_, resultEq, fun other => ⟨nofun, ?_⟩, iff_of_true rfl isClosed, ⟨nofun, ?_⟩⟩
    · intro otherFound
      exact Option.some.inj (resultEq.symm.trans (found otherFound))
    · intro isEnd
      exact Option.some.inj (resultEq.symm.trans (ends isEnd))
  · have resultEq := ends isEnd
    refine ⟨_, resultEq, fun other => ⟨nofun, ?_⟩, ⟨nofun, ?_⟩, iff_of_true rfl isEnd⟩
    · intro otherFound
      exact Option.some.inj (resultEq.symm.trans (found otherFound))
    · intro isClosed
      exact Option.some.inj (resultEq.symm.trans (closes isClosed))

/-! ### The two lookups compared -/

/-- The lookups succeed together and deliver the same value. -/
def Agree (byFieldKey byKey : Option Result) : Prop :=
  ((∃ value, byFieldKey = some ⟨0, some value⟩) ↔ ∃ value, byKey = some ⟨0, some value⟩) ∧
    ∀ value other, byFieldKey = some ⟨0, some value⟩ → byKey = some ⟨0, some other⟩ →
      value = other

theorem mem_trimmed {source result : List UInt8} (trimmed : Trimmed source result) {byte : UInt8}
    (member : byte ∈ source) (other : byte ≠ 32) : byte ∈ result := by
  obtain ⟨before, behind, rfl, -⟩ := trimmed
  simpa [List.mem_replicate, other] using member

/-- The value of a line includes its newline. -/
theorem newline_mem_value {line : ConfLine} {name value : List UInt8}
    (assigned : Assignment line.bytes name value) : 10 ∈ value := by
  have ended := congrArg List.getLast? assigned.1
  rw [ConfLine.bytes, List.getLast?_append, List.getLast?_append] at ended
  cases value with
  | nil => simp at ended
  | cons byte rest =>
      apply List.mem_of_getLast?
      simpa [List.getLast?_cons_cons] using ended.symm

/-- `Get_ValuseString_ByKey_InConfFile` takes the first line with the key. -/
theorem getValuseStringByKeyInConfFile_eq (lines : List ConfLine) (sKey : List UInt8) :
    getValuseStringByKeyInConfFile (some (confFile lines)) sKey =
      some (match (lines.map ConfLine.bytes).find? fun line => decide (HasKey sKey line) with
        | none => ⟨-1, none⟩
        | some line => ⟨0, getStringBehindDhQdKg line⟩) := by
  have found := @lookup_key _ () _ sKey _ (fun _ => False) _ (lines.map ConfLine.bytes)
    keyPhase_byKey cutsValue_qdKg id fun line member => confLine_lawful member
  simpa [getValuseStringByKeyInConfFile, fgets_confFile, keyResult] using found

/-- The value of a successful lookup by key contains the newline of its line. -/
theorem byKey_newline {lines : List ConfLine} {sKey value : List UInt8}
    (found : getValuseStringByKeyInConfFile (some (confFile lines)) sKey =
      some ⟨0, some value⟩) : 10 ∈ value := by
  rw [getValuseStringByKeyInConfFile_eq, Option.some.injEq] at found
  split at found
  · cases found
  · rename_i line first
    obtain ⟨source, -, rfl⟩ := List.mem_map.mp (List.mem_of_find?_eq_some first)
    have has : HasKey sKey source.bytes := by simpa using List.find?_some first
    obtain ⟨name, rest, assigned, -⟩ := getStringBeforeDhQdKg_eq_some_iff.mp has
    have valueEq : some (trim rest) = some value := by
      rw [← getStringBehindDhQdKg_eq assigned]
      exact congrArg Result.value found
    cases valueEq
    exact mem_trimmed (trimmed_trim rest) (newline_mem_value assigned) (by decide)

/-- The value of a successful lookup in a section contains no newline, and some line has the
key. -/
theorem byFieldKey_newline {lines : List ConfLine} {sField sKey value : List UInt8}
    (found : getValuseStringByFieldKeyInConfFile (some (confFile lines)) sField sKey =
      some ⟨0, some value⟩) :
    10 ∉ value ∧ ∃ line ∈ lines, HasKey sKey line.bytes := by
  have lawful : ∀ line ∈ lines.map ConfLine.bytes, 0 ∉ line ∧ Whole line :=
    fun line member => confLine_lawful member
  simp only [getValuseStringByFieldKeyInConfFile, fgets_confFile] at found
  rcases lookup_trichotomy (text sField) (text sKey) (lines.map ConfLine.bytes) with
    ⟨other, isFound⟩ | isClosed | isEnd
  · have same := (lookup_valueFound lawful isFound).symm.trans found
    cases same
    obtain ⟨middle, line, rest, inSection, -, -, assigns⟩ := isFound
    obtain ⟨source, member, rfl⟩ := List.mem_map.mp (inSection.subset line (by simp))
    refine ⟨?_, source, member, hasKey_iff.mpr ⟨value, assigns⟩⟩
    obtain ⟨name, text, -, -, before, behind, filtered, -⟩ := assigns
    intro newline
    have kept : 10 ∈ text.filter (· != 10) := by
      rw [filtered]
      simp [newline]
    simp at kept
  · rw [lookup_sectionCloses lawful isClosed] at found
    cases found
  · rw [lookup_fileEnds lawful isEnd] at found
    cases found

/-- On every file of lines, with or without sections, the two lookups agree if and only if no
line has the key: the value of the one keeps the newline of its line, which the other
deletes. -/
theorem lookups_agree_iff (lines : List ConfLine) (sField sKey : List UInt8) :
    Agree (getValuseStringByFieldKeyInConfFile (some (confFile lines)) sField sKey)
        (getValuseStringByKeyInConfFile (some (confFile lines)) sKey) ↔
      ∀ line ∈ lines, ¬ HasKey sKey line.bytes := by
  constructor
  · rintro ⟨together, same⟩ line member has
    obtain ⟨value, byKey⟩ : ∃ value,
        getValuseStringByKeyInConfFile (some (confFile lines)) sKey = some ⟨0, some value⟩ := by
      rw [getValuseStringByKeyInConfFile_eq]
      cases first : (lines.map ConfLine.bytes).find? fun line => decide (HasKey sKey line) with
      | none =>
          have absent := List.find?_eq_none.mp first line.bytes (List.mem_map_of_mem member)
          exact absurd has (by simpa using absent)
      | some found =>
          have foundHas : HasKey sKey found := by simpa using List.find?_some first
          obtain ⟨value, valueEq⟩ := Option.isSome_iff_exists.mp (cutsValue_qdKg found _ foundHas)
          exact ⟨value, by simp [valueEq]⟩
    obtain ⟨other, byFieldKey⟩ := together.mpr ⟨value, byKey⟩
    cases same other value byFieldKey byKey
    exact (byFieldKey_newline byFieldKey).1 (byKey_newline byKey)
  · intro absent
    have failsByKey (value : List UInt8) :
        getValuseStringByKeyInConfFile (some (confFile lines)) sKey ≠ some ⟨0, some value⟩ := by
      have none : (lines.map ConfLine.bytes).find? (fun line => decide (HasKey sKey line)) =
          none := by
        refine List.find?_eq_none.mpr fun line member => ?_
        obtain ⟨source, inLines, rfl⟩ := List.mem_map.mp member
        simpa using absent source inLines
      rw [getValuseStringByKeyInConfFile_eq, none]
      simp
    have failsByFieldKey (value : List UInt8) :
        getValuseStringByFieldKeyInConfFile (some (confFile lines)) sField sKey ≠
          some ⟨0, some value⟩ := by
      intro found
      obtain ⟨-, line, member, has⟩ := byFieldKey_newline found
      exact absent line member has
    refine ⟨iff_of_false ?_ ?_, fun value _ found => absurd found (failsByFieldKey value)⟩
    · rintro ⟨value, found⟩
      exact failsByFieldKey value found
    · rintro ⟨value, found⟩
      exact failsByKey value found

/-- The line `[f]`. -/
def headerLine : ConfLine := ⟨[91, 102, 93], by decide, by decide, by decide⟩

/-- The line `k=v`. -/
def entryLine : ConfLine := ⟨[107, 61, 118], by decide, by decide, by decide⟩

/-- The values are `v` and `v` with a newline. -/
theorem not_lookups_agree :
    ¬ ∀ (header : ConfLine) (rest : List ConfLine) (sField sKey : List UInt8),
      header.content = 91 :: (sField ++ [93]) →
      (∀ line ∈ rest, ¬ ∃ inner, Bracketed line.bytes inner) →
      Agree (getValuseStringByFieldKeyInConfFile (some (confFile (header :: rest))) sField sKey)
        (getValuseStringByKeyInConfFile (some (confFile (header :: rest))) sKey) := by
  intro agree
  have plain : ∀ line ∈ [entryLine], ¬ ∃ inner, Bracketed line.bytes inner := by
    simp only [← hasBrackets_iff]
    decide
  have same := (agree headerLine [entryLine] [102] [107] rfl plain).2
  have byFieldKey : getValuseStringByFieldKeyInConfFile
      (some (confFile [headerLine, entryLine])) [102] [107] = some ⟨0, some [118]⟩ := rfl
  have byKey : getValuseStringByKeyInConfFile (some (confFile [headerLine, entryLine])) [107] =
      some ⟨0, some [118, 10]⟩ := rfl
  cases same _ _ byFieldKey byKey

end FrameCode.LibConfFile
