import FrameCode.LibConfFile

/-!
# Long lines and missing newlines

What the lookups of `lib_conf_file.c` do on arbitrary files without NUL.  A line that is
longer than the buffer, and a last line without a newline, gives a piece that does not end
with a newline.  After such a piece a lookup goes on to a turn that extends the line it has
freed, unless it returns before.
-/

namespace FrameCode.LibConfFile

open CText LibString LineReading

/-- The file with a newline at its end. -/
def completed (file : List UInt8) : List UInt8 :=
  if file.getLast? = some 10 then file else file ++ [10]

section Completed

variable {φ : Type} {turn : φ → Nat → Option (List UInt8) → Option (Progress φ)}

/-- What the turns of both lookups have in common.  No second turn on a line gets through at
the end of the file; a piece without a newline keeps the counter, and a lookup that returns
at such a piece also returns at the line that it is the start of. -/
structure LineTurn (turn : φ → Nat → Option (List UInt8) → Option (Progress φ)) : Prop where
  late_end : ∀ phase count, count ≠ 1 → turn phase count none = none
  newline : ∀ phase, turn phase 1 (some [10]) = some (.again phase 0)
  torn : ∀ phase count piece, 0 ∉ piece → piece ≠ [] → ¬ Whole piece →
    (∃ result, turn phase count (some piece) = some (.returned result) ∧
      turn phase count (some (piece ++ [10])) = some (.returned result)) ∨
    (∃ next, turn phase count (some piece) = some (.again next count)) ∨
    turn phase count (some piece) = none

theorem of_mem_fgets {file piece : List UInt8} (clean : 0 ∉ file) (member : piece ∈ fgets file) :
    piece ≠ [] ∧ 0 ∉ piece := by
  obtain ⟨nonempty, inside⟩ := of_mem_pieces (by decide) member
  exact ⟨nonempty, fun zero => clean (inside 0 zero)⟩

theorem lookup_append (phase : φ) (first second : List (List UInt8)) :
    lookup turn phase (first ++ second) =
      (run (readStep turn) (.again phase 0) first).bind fun progress =>
        (run (readStep turn) progress second).bind (endStep turn) := by
  rw [lookup, run_append, Option.bind_assoc]

/-- At a last piece without a newline a lookup only gets through when it returns there. -/
theorem returned_of_torn (lineTurn : LineTurn turn) {phase : φ} {count : Nat}
    {last : List UInt8} (clean : 0 ∉ last) (nonempty : last ≠ []) (torn : ¬ Whole last)
    (returns : ((run (readStep turn) (.again phase count) [last]).bind (endStep turn)).isSome) :
    ∃ result, turn phase (count + 1) (some last) = some (.returned result) ∧
      turn phase (count + 1) (some (last ++ [10])) = some (.returned result) := by
  rcases lineTurn.torn phase (count + 1) last clean nonempty torn with
    returned | ⟨next, taken⟩ | undefined
  · exact returned
  · simp [run, readStep, taken, endStep, lineTurn.late_end] at returns
  · simp [run, readStep, undefined] at returns

/-- A lookup that returns also returns the same on the completed file. -/
theorem lookup_completed (lineTurn : LineTurn turn) {phase : φ} {file : List UInt8}
    (clean : 0 ∉ file) (returns : (lookup turn phase (fgets file)).isSome) :
    lookup turn phase (fgets (completed file)) = lookup turn phase (fgets file) := by
  unfold completed
  split
  · rfl
  · rename_i lacks
    by_cases empty : file = []
    · subst empty
      have single : fgets ([] ++ [10]) = [[10]] := by decide
      rw [single]
      simp [lookup, run, readStep, lineTurn.newline, fgets]
    · obtain ⟨before, last, piecesEq, torn, completedEq⟩ :=
        pieces_append_stop (by decide : 0 < 4095) empty lacks
      have lastMember : last ∈ fgets file := by
        rw [fgets, piecesEq]
        simp
      obtain ⟨nonempty, lastClean⟩ := of_mem_fgets clean lastMember
      unfold fgets at returns ⊢
      rw [piecesEq, lookup_append] at returns ⊢
      cases reached : run (readStep turn) (.again phase 0) before with
      | none => simp [reached] at returns
      | some progress =>
          rw [reached, Option.bind_some] at returns
          cases progress with
          | returned result =>
              rcases completedEq with line | full
              · rw [line, lookup_append, reached]
                simp [run_returned]
              · rw [full, lookup_append, reached]
                simp [run_returned]
          | again next count =>
              obtain ⟨result, ended, endedLine⟩ :=
                returned_of_torn lineTurn lastClean nonempty torn returns
              rcases completedEq with line | full
              · rw [line, lookup_append, reached]
                simp [run, readStep, ended, endedLine]
              · rw [full, lookup_append, reached]
                simp [run, readStep, ended]

end Completed

section Turns

variable {φ : Type} {phase : φ} {behind : List UInt8 → Option (List UInt8)}
variable {sField sKey piece : List UInt8}

/-- A turn on a piece without a newline goes on to another turn or is a second turn. -/
theorem torn_cases {turn : Nat → Option (List UInt8) → Option (Progress φ)}
    (first : turn 1 (some piece) = some (.again phase 1))
    (late : ∀ {count}, count ≠ 1 → ∀ pRet, turn count pRet = none) (count : Nat) :
    turn count (some piece) = some (.again phase count) ∨ turn count (some piece) = none := by
  by_cases early : count = 1
  · subst early
    exact Or.inl first
  · exact Or.inr (late early _)

theorem lineTurn_key : LineTurn (keyTurn behind sKey : φ → _) where
  late_end _ _ late := keyTurn_late late none
  newline _ := rfl
  torn phase count _ clean nonempty torn :=
    Or.inr ((torn_cases (keyTurn_torn clean nonempty torn) keyTurn_late count).imp_left
      fun taken => ⟨phase, taken⟩)

/-- A newline behind a line does not change its brackets. -/
theorem hasBrackets_append (brackets : HasBrackets piece) (more : List UInt8) :
    HasBrackets (piece ++ more) := by
  obtain ⟨inner, before, behind, rfl, opening, closing⟩ := hasBrackets_iff.mp brackets
  exact hasBrackets_iff.mpr ⟨inner, before, behind ++ more, by simp, opening, closing⟩

theorem lineTurn_fieldKey : LineTurn (fieldKeyTurn sField sKey) where
  late_end phase count late := by
    cases phase with
    | field => exact fieldTurn_late late none
    | key => exact keyTurn_late late none
  newline phase := by
    cases phase <;> rfl
  torn phase count piece clean nonempty torn := by
    cases phase with
    | field =>
        exact Or.inr ((torn_cases (fieldTurn_torn clean nonempty torn) fieldTurn_late
          count).imp_left fun taken => ⟨.field, taken⟩)
    | key =>
        have clean' : 0 ∉ piece ++ [10] := by simp [clean]
        rw [keyPhase_byFieldKey count (some piece),
          keyPhase_byFieldKey count (some (piece ++ [10])), readLine_some clean,
          readLine_some clean']
        by_cases brackets : HasBrackets piece
        · rw [if_pos brackets, if_pos (hasBrackets_append brackets _)]
          exact Or.inl ⟨_, rfl, rfl⟩
        · rw [if_neg brackets]
          exact Or.inr ((torn_cases (keyTurn_torn clean nonempty torn) keyTurn_late
            count).imp_left fun taken => ⟨.key, taken⟩)

end Turns

/-! ## When a lookup gets through -/

section Decided

variable {φ : Type} {turn : φ → Nat → Option (List UInt8) → Option (Progress φ)} {phase : φ}
variable {behind : List UInt8 → Option (List UInt8)} {closes : List UInt8 → Prop}
variable [DecidablePred closes] {sField sKey : List UInt8} {lines rest : List (List UInt8)}

/-- A key lookup gets through a piece without a newline only if this piece or the next one
closes the section. -/
theorem lookup_torn_isSome_iff (key : KeyPhase turn phase closes behind sKey)
    (open_nil : ¬ closes []) (clean : ∀ piece ∈ rest, piece ≠ [] ∧ 0 ∉ piece)
    (torn : ∀ piece ∈ rest.head?, ¬ Whole piece) :
    (lookup turn phase rest).isSome ↔ rest = [] ∨ ∃ piece ∈ rest.take 2, closes piece := by
  cases rest with
  | nil => simp [lookup, run, endStep, key 1 none, open_nil, keyTurn_end]
  | cons piece more =>
      obtain ⟨nonempty, pieceClean⟩ := clean piece (by simp)
      have first : turn phase 1 (some piece) =
          if closes piece then some (.returned ⟨-3, none⟩) else some (.again phase 1) := by
        rw [key, readLine_some pieceClean, keyTurn_torn pieceClean nonempty (torn piece rfl)]
      by_cases closing : closes piece
      · simp [lookup, run, readStep, first, closing, run_returned, endStep]
      · cases more with
        | nil =>
            simp [lookup, run, readStep, first, closing, endStep, key 2 none, open_nil,
              keyTurn_late]
        | cons next others =>
            have second : turn phase 2 (some next) =
                if closes next then some (.returned ⟨-3, none⟩) else none := by
              rw [key, readLine_some (clean next (by simp)).2, keyTurn_late (by decide)]
            by_cases closingNext : closes next
            · simp [lookup, run, readStep, first, closing, second, closingNext, run_returned,
                endStep]
            · simp [lookup, run, readStep, first, closing, second, closingNext]

/-- The lines before are read whole, and may have ended the lookup. -/
theorem lookup_key_isSome_iff (key : KeyPhase turn phase closes behind sKey)
    (cuts : CutsValue behind) (open_nil : ¬ closes [])
    (lawful : ∀ line ∈ lines, 0 ∉ line ∧ Whole line)
    (clean : ∀ piece ∈ rest, piece ≠ [] ∧ 0 ∉ piece) (torn : ∀ piece ∈ rest.head?, ¬ Whole piece) :
    (lookup turn phase (lines ++ rest)).isSome ↔
      rest = [] ∨ (∃ line ∈ lines, closes line ∨ HasKey sKey line) ∨
        ∃ piece ∈ rest.take 2, closes piece := by
  rw [lookup_append, run_key key cuts lawful, Option.bind_some]
  cases found : lines.find? fun line => decide (closes line ∨ HasKey sKey line) with
  | none =>
      have passed : ¬ ∃ line ∈ lines, closes line ∨ HasKey sKey line := by
        rintro ⟨line, member, ended⟩
        exact List.find?_eq_none.mp found line member (decide_eq_true ended)
      rw [or_iff_right passed]
      exact lookup_torn_isSome_iff key open_nil clean torn
  | some line =>
      have ended : ∃ line ∈ lines, closes line ∨ HasKey sKey line :=
        ⟨line, List.mem_of_find?_eq_some found, by simpa using List.find?_some found⟩
      simp [run_returned, endStep, ended]

variable (sField sKey) in
theorem lookup_field_torn {piece : List UInt8}
    (clean : ∀ other ∈ piece :: rest, other ≠ [] ∧ 0 ∉ other) (torn : ¬ Whole piece) :
    lookup (fieldKeyTurn sField sKey) .field (piece :: rest) = none := by
  obtain ⟨nonempty, pieceClean⟩ := clean piece (by simp)
  have first : fieldKeyTurn sField sKey .field 1 (some piece) = some (.again .field 1) :=
    fieldTurn_torn pieceClean nonempty torn
  have second (pRet : Option (List UInt8)) :
      fieldKeyTurn sField sKey .field 2 pRet = none := fieldTurn_late (by decide) pRet
  cases rest with
  | nil => simp [lookup, run, readStep, first, endStep, second]
  | cons next others => simp [lookup, run, readStep, first, second]

/-- A section lookup gets through if all pieces are lines, or if the section has begun before
the first piece that is none and its key lookup gets through. -/
theorem lookup_fieldKey_isSome_iff (lawful : ∀ line ∈ lines, 0 ∉ line ∧ Whole line)
    (clean : ∀ piece ∈ rest, piece ≠ [] ∧ 0 ∉ piece) (torn : ∀ piece ∈ rest.head?, ¬ Whole piece) :
    (lookup (fieldKeyTurn sField sKey) .field (lines ++ rest)).isSome ↔
      rest = [] ∨ ∃ body, SectionBody (text sField) lines body ∧
        ((∃ line ∈ body, HasBrackets line ∨ HasKey sKey line) ∨
          ∃ piece ∈ rest.take 2, HasBrackets piece) := by
  have inSection {body : List (List UInt8)} (found : SectionBody (text sField) lines body) :
      (lookup (fieldKeyTurn sField sKey) .field (lines ++ rest)).isSome ↔
        rest = [] ∨ (∃ line ∈ body, HasBrackets line ∨ HasKey sKey line) ∨
          ∃ piece ∈ rest.take 2, HasBrackets piece := by
    rw [lookup_append, run_section lawful found, ← lookup_append]
    exact lookup_key_isSome_iff keyPhase_byFieldKey cutsValue_qdKgHh (by decide)
      (fun line member => lawful line (found.subset line member)) clean torn
  by_cases present : ∃ line ∈ lines, Bracketed line (text sField)
  · obtain ⟨before, header, body, linesEq, named, first⟩ := exists_first present
    have found : SectionBody (text sField) lines body := ⟨before, header, linesEq, named, first⟩
    constructor
    · intro returns
      exact ((inSection found).mp returns).imp_right fun decided => ⟨body, found, decided⟩
    · rintro (empty | ⟨other, otherFound, decided⟩)
      · exact (inSection found).mpr (Or.inl empty)
      · exact (inSection otherFound).mpr (Or.inr decided)
  · have absent : ∀ line ∈ lines, ¬ Bracketed line (text sField) := fun line member named =>
      present ⟨line, member, named⟩
    have nothing : ¬ ∃ body, SectionBody (text sField) lines body ∧
        ((∃ line ∈ body, HasBrackets line ∨ HasKey sKey line) ∨
          ∃ piece ∈ rest.take 2, HasBrackets piece) := by
      rintro ⟨body, ⟨before, header, linesEq, named, -⟩, -⟩
      exact absent header (by simp [linesEq]) named
    rw [or_iff_left nothing, lookup_append, run_no_section lawful absent, Option.bind_some]
    cases rest with
    | nil => exact iff_of_true rfl rfl
    | cons piece more =>
        have stuck := lookup_field_torn sField sKey clean (torn piece rfl)
        rw [lookup] at stuck
        simp [stuck]

end Decided

/-! ## Files of any shape -/

/-- The lines before the first piece without a newline. -/
def linesBefore (file : List UInt8) : List (List UInt8) :=
  (fgets file).takeWhile fun piece => decide (Whole piece)

/-- The first piece without a newline and the pieces behind it. -/
def tornPieces (file : List UInt8) : List (List UInt8) :=
  (fgets file).dropWhile fun piece => decide (Whole piece)

/-- A lookup of the key is decided before the first piece without a newline. -/
def KeyDecided (sKey file : List UInt8) : Prop :=
  tornPieces file = [] ∨ ∃ line ∈ linesBefore file, HasKey sKey line

/-- A lookup in the section is decided before the first piece without a newline, or it ends
within the section at this piece or the next one. -/
def FieldKeyDecided (sField sKey file : List UInt8) : Prop :=
  tornPieces file = [] ∨ ∃ body, SectionBody (text sField) (linesBefore file) body ∧
    ((∃ line ∈ body, HasBrackets line ∨ HasKey sKey line) ∨
      ∃ piece ∈ (tornPieces file).take 2, HasBrackets piece)

/-- The lookup returns, and returns the same when the file is completed. -/
def Insensitive (lookup : List UInt8 → Option Result) (file : List UInt8) : Prop :=
  (lookup file).isSome ∧ lookup (completed file) = lookup file

theorem linesBefore_lawful {file : List UInt8} (clean : 0 ∉ file) :
    ∀ line ∈ linesBefore file, 0 ∉ line ∧ Whole line := by
  intro line member
  have whole : Whole line := by simpa using List.mem_takeWhile_imp member
  exact ⟨(of_mem_fgets clean ((List.takeWhile_prefix _).mem member)).2, whole⟩

theorem tornPieces_clean {file : List UInt8} (clean : 0 ∉ file) :
    ∀ piece ∈ tornPieces file, piece ≠ [] ∧ 0 ∉ piece := fun _ member =>
  of_mem_fgets clean ((List.dropWhile_suffix _).mem member)

theorem tornPieces_torn (file : List UInt8) :
    ∀ piece ∈ (tornPieces file).head?, ¬ Whole piece := by
  intro piece first
  have stopped := List.head?_dropWhile_not (fun piece => decide (Whole piece)) (fgets file)
  rw [← tornPieces, Option.mem_def.mp first] at stopped
  simpa using stopped

/-- On a file without NUL a lookup returns, without extending a null pointer, and does not
depend on a final newline if and only if it is decided by the lines before the first piece
that does not end with a newline; in a section, a piece with brackets that comes next, or
one further, decides it too. -/
theorem lookups_insensitive_iff {file : List UInt8} (clean : 0 ∉ file)
    (sField sKey : List UInt8) :
    (Insensitive (fun file => getValuseStringByKeyInConfFile (some file) sKey) file ↔
        KeyDecided sKey file) ∧
      (Insensitive (fun file => getValuseStringByFieldKeyInConfFile (some file) sField sKey) file ↔
        FieldKeyDecided sField sKey file) := by
  have split : fgets file = linesBefore file ++ tornPieces file :=
    (List.takeWhile_append_dropWhile).symm
  have lawful := linesBefore_lawful clean
  have tornClean := tornPieces_clean clean
  have torn := tornPieces_torn file
  constructor
  · have returns := @lookup_key_isSome_iff _ _ () _ (fun _ => False) _ sKey _ _
      keyPhase_byKey cutsValue_qdKg id lawful tornClean torn
    rw [← split] at returns
    constructor
    · rintro ⟨isSome, -⟩
      simpa [KeyDecided] using returns.mp isSome
    · intro decided
      have isSome := returns.mpr (by simpa [KeyDecided] using decided)
      exact ⟨isSome, lookup_completed lineTurn_key clean isSome⟩
  · have returns := @lookup_fieldKey_isSome_iff sField sKey _ _ lawful tornClean torn
    rw [← split] at returns
    exact ⟨fun insensitive => returns.mp insensitive.1, fun decided =>
      ⟨returns.mpr decided, lookup_completed lineTurn_fieldKey clean (returns.mpr decided)⟩⟩

/-- The lines `[f]` and `k=v`, and an `x` without a newline. -/
def unfinished : List UInt8 := [91, 102, 93, 10, 107, 61, 118, 10, 120]

theorem lookups_insensitive_unfinished :
    Insensitive (fun file => getValuseStringByKeyInConfFile (some file) [107]) unfinished ∧
      Insensitive (fun file => getValuseStringByFieldKeyInConfFile (some file) [102] [107])
        unfinished := by
  have decided := @lookups_insensitive_iff unfinished (by decide) [102] [107]
  have lines : linesBefore unfinished = [[91, 102, 93, 10], [107, 61, 118, 10]] := rfl
  refine ⟨decided.1.mpr (Or.inr ?_), decided.2.mpr (Or.inr ?_)⟩
  · rw [lines]
    exact ⟨[107, 61, 118, 10], by simp, by decide⟩
  · rw [lines]
    refine ⟨[[107, 61, 118, 10]], ⟨[], [91, 102, 93, 10], rfl, ?_, by simp⟩, Or.inl ?_⟩
    · exact isHeader_iff.mp (by decide)
    · exact ⟨[107, 61, 118, 10], by simp, Or.inr (by decide)⟩

/-- The line `k=v` without a newline: the second turn uses the null pointer. -/
theorem not_lookups_insensitive :
    ¬ ∀ (file sField sKey : List UInt8), 0 ∉ file →
      Insensitive (fun file => getValuseStringByKeyInConfFile (some file) sKey) file ∧
        Insensitive (fun file => getValuseStringByFieldKeyInConfFile (some file) sField sKey)
          file := by
  intro insensitive
  have returns : (getValuseStringByKeyInConfFile (some [107, 61, 118]) [107]).isSome :=
    (insensitive [107, 61, 118] [] [107] (by decide)).1.1
  have stuck : getValuseStringByKeyInConfFile (some [107, 61, 118]) [107] = none := rfl
  rw [stuck] at returns
  cases returns

end FrameCode.LibConfFile
