import FrameCode.LibFilePasses

/-!
# The modes for lines of nothing but blanks

The modes `t`, `s` and `a` are there to empty the lines that have only tabs, only blanks, or only
both.  They look at a line with its newline, which is no blank, and so copy every line.  Only a
line that fills the buffer is read without its newline.
-/

namespace FrameCode.LibFile

open CText LineReading

/-! ## What the modes are for -/

/-- The modes that empty lines. -/
def Flag.emptying : List Flag := [.ifLineOnlyTab, .ifLineOnlyKg, .ifLineOnlyKgAndTab]

/-- The bytes that may stand in a line to be emptied. -/
def Flag.blank : Flag → UInt8 → Bool
  | .ifLineOnlyTab, byte => byte == 9
  | .ifLineOnlyKg, byte => byte == 32
  | _, byte => byte == 9 || byte == 32

def emptied (blank : UInt8 → Bool) (line : List UInt8) : List UInt8 :=
  if line.all blank then [] else line

/-- The call leaves the lines in the output file, with those emptied that have only blanks. -/
def EmptiesLines (lineMax : Nat) (before : Nat → UInt8) (files : Files)
    (inFile outFile : List UInt8) (flag : Flag) (lines : List (List UInt8)) : Prop :=
  ∃ outcome, doFile lineMax before files inFile outFile flag = some outcome ∧
    outcome.failed = false ∧
    outcome.files outcome.outFile = some (joinLines 10 (lines.map (emptied flag.blank)) [])

/-! ## What the modes write -/

/-- What is written for a line, when `limit` bytes fit into the buffer. -/
def written (blank : UInt8 → Bool) (limit : Nat) (line : List UInt8) : List UInt8 :=
  if line.length = limit ∧ line.all blank then [10, 10] else line ++ [10]

section Written

variable {lineMax limit : Nat} {before : Nat → UInt8} {blank : UInt8 → Bool} {flag : Flag}
variable {line : List UInt8} {lines : List (List UInt8)}

theorem Flag.blank_newline (flag : Flag) : flag.blank 10 = false := by
  cases flag <;> rfl

theorem lineOutput_emptying (mode : flag ∈ Flag.emptying) (indent : Indent) (line : List UInt8) :
    lineOutput before flag indent line = some (indent, emptyLineOf flag.blank line) := by
  simp only [Flag.emptying, List.mem_cons, List.not_mem_nil, or_false] at mode
  rcases mode with rfl | rfl | rfl
  · rfl
  · rfl
  · rfl

/-- A line with its newline is never emptied. -/
theorem emptyLineOf_newline (newline : blank 10 = false) (line : List UInt8) :
    emptyLineOf blank (line ++ [10]) = line ++ [10] := by
  rw [emptyLineOf, if_neg]
  simp [newline]

/-- A line that fills the buffer is emptied, and its newline is another piece. -/
theorem emptyLineOf_full (newline : blank 10 = false) (full : line.length = limit) :
    emptyLineOf blank line ++ emptyLineOf blank [10] = written blank limit line := by
  have alone : emptyLineOf blank [10] = [10] := emptyLineOf_newline newline []
  rw [alone, emptyLineOf, written]
  by_cases all : line.all blank = true
  · rw [if_pos all, if_pos ⟨full, all⟩]
    rfl
  · rw [if_neg all, if_neg fun both => all both.2]

theorem flatMap_emptyLineOf (newline : blank 10 = false) (positive : 0 < limit)
    (lawful : ∀ line ∈ lines, 10 ∉ line ∧ line.length ≤ limit) :
    (pieces 10 limit (joinLines 10 lines [])).flatMap (emptyLineOf blank) =
      lines.flatMap (written blank limit) := by
  induction lines with
  | nil => rfl
  | cons line lines ih =>
      rw [List.forall_mem_cons] at lawful
      obtain ⟨⟨single, bounded⟩, later⟩ := lawful
      rw [joinLines_cons, List.flatMap_cons, ← ih later]
      rcases Nat.lt_or_eq_of_le bounded with short | full
      · rw [pieces_eq positive (by simp), readPiece_line single short, List.flatMap_cons,
          emptyLineOf_newline newline, written, if_neg fun both => short.ne both.1]
      · rw [pieces_full positive single full, List.flatMap_cons, List.flatMap_cons,
          ← List.append_assoc, emptyLineOf_full newline full]

theorem process_emptying (mode : flag ∈ Flag.emptying) (wide : 1 < lineMax)
    (noNul : ∀ line ∈ lines, 0 ∉ line)
    (lawful : ∀ line ∈ lines, 10 ∉ line ∧ line.length < lineMax) :
    process lineMax before flag (joinLines 10 lines []) =
      some (lines.flatMap (written flag.blank (lineMax - 1))) := by
  have byLines : flag ≠ .multipleHhToTwoHh := by
    rintro rfl
    exact absurd mode (by decide)
  have noNulContent : 0 ∉ joinLines 10 lines [] :=
    (notMem_joinLines (by decide)).mpr ⟨noNul, List.not_mem_nil⟩
  rw [process_eq wide noNulContent byLines fun indent piece _ =>
    lineOutput_emptying mode indent piece, flatMap_emptyLineOf flag.blank_newline (by omega)]
  intro line member
  have short := (lawful line member).2
  exact ⟨(lawful line member).1, by omega⟩

end Written

/-! ## When they do what they are for -/

section Comparison

variable {blank : UInt8 → Bool} {limit : Nat} {line : List UInt8}

theorem joinLines_emptied (blank : UInt8 → Bool) (lines : List (List UInt8)) :
    joinLines 10 (lines.map (emptied blank)) [] =
      lines.flatMap fun line => emptied blank line ++ [10] := by
  rw [joinLines, List.append_nil, List.flatMap_map]

theorem length_emptied_le (blank : UInt8 → Bool) (limit : Nat) (line : List UInt8) :
    (emptied blank line ++ [10]).length ≤ (written blank limit line).length := by
  rw [emptied, written]
  split
  · split <;> simp
  · rw [if_neg fun both => absurd both.2 ‹_›]

theorem written_eq_iff (positive : 0 < limit) :
    written blank limit line = emptied blank line ++ [10] ↔
      (line.all blank = true → line = []) := by
  rw [emptied]
  by_cases all : line.all blank = true
  · rw [if_pos all, written]
    by_cases full : line.length = limit
    · have nonempty : line ≠ [] := List.ne_nil_of_length_pos (full ▸ positive)
      rw [if_pos ⟨full, all⟩]
      simp [all, nonempty]
    · rw [if_neg fun both => full both.1]
      simp [all]
  · rw [if_neg all, written, if_neg fun both => all both.2]
    simp [all]

end Comparison

section Call

variable {lineMax : Nat} {before : Nat → UInt8} {files : Files} {inFile outFile : List UInt8}
variable {flag : Flag} {lines : List (List UInt8)}

/-- A call with one of the modes leaves what `process` makes of the input file, or of the empty file
when the output file is the same one. -/
theorem emptiesLines_iff_process (mode : flag ∈ Flag.emptying)
    (found : files inFile = some (joinLines 10 lines [])) :
    EmptiesLines lineMax before files inFile outFile flag lines ↔
      process lineMax before flag
          (if (if outFile = [] then inFile ++ outtmp else outFile) = inFile then []
            else joinLines 10 lines []) =
        some (joinLines 10 (lines.map (emptied flag.blank)) []) := by
  have single : flag.Single := by
    simp only [Flag.emptying, List.mem_cons, List.not_mem_nil, or_false] at mode
    rcases mode with rfl | rfl | rfl
    · decide
    · decide
    · decide
  rw [EmptiesLines, doFile_eq single found]
  change _ ↔ process lineMax before flag
    (if outputName inFile outFile = inFile then [] else joinLines 10 lines []) = _
  cases process lineMax before flag
      (if outputName inFile outFile = inFile then [] else joinLines 10 lines []) with
  | none => simp
  | some output => simp

theorem joinLines_emptied_eq_nil_iff :
    joinLines 10 (lines.map (emptied flag.blank)) [] = [] ↔ lines = [] := by
  rw [joinLines_emptied]
  cases lines with
  | nil => simp
  | cons line lines =>
      rw [List.flatMap_cons]
      simp

/-- The lines are emptied as they should exactly when no line has only blanks, but for lines that
are empty already, and the output file is not the input file, or this one is empty. -/
theorem emptiesLines_iff (mode : flag ∈ Flag.emptying) (wide : 1 < lineMax)
    (found : files inFile = some (joinLines 10 lines []))
    (noNul : ∀ line ∈ lines, 0 ∉ line)
    (lawful : ∀ line ∈ lines, 10 ∉ line ∧ line.length < lineMax) :
    EmptiesLines lineMax before files inFile outFile flag lines ↔
      lines = [] ∨ ((if outFile = [] then inFile ++ outtmp else outFile) ≠ inFile ∧
        ∀ line ∈ lines, line.all flag.blank = true → line = []) := by
  rw [emptiesLines_iff_process mode found]
  by_cases same : (if outFile = [] then inFile ++ outtmp else outFile) = inFile
  · have nothing : process lineMax before flag [] = some [] :=
      @process_emptying lineMax before flag [] mode wide nofun nofun
    rw [if_pos same, nothing, Option.some.injEq, eq_comm, joinLines_emptied_eq_nil_iff]
    simp [same]
  · rw [if_neg same, process_emptying mode wide noNul lawful, joinLines_emptied,
      Option.some.injEq,
      flatMap_eq_flatMap_iff fun line _ => length_emptied_le flag.blank (lineMax - 1) line]
    have each (line : List UInt8) := @written_eq_iff flag.blank (lineMax - 1) line (by omega)
    simp only [each]
    constructor
    · exact fun copied => Or.inr ⟨same, copied⟩
    · rintro (rfl | ⟨-, copied⟩)
      · exact fun line member => absurd member List.not_mem_nil
      · exact copied

/-- A file with a line of text. -/
theorem emptiesLines_text :
    EmptiesLines 40960 (fun _ => 0) (Function.update (fun _ => none) [105] (some [97, 9, 10])) [105]
      [111] .ifLineOnlyTab [[97, 9]] := by
  rw [emptiesLines_iff (by decide) (by decide) (by rfl) (by decide) (by decide)]
  decide

/-- A file with a line of one tab. -/
theorem not_emptiesLines_tab :
    ¬ EmptiesLines 40960 (fun _ => 0) (Function.update (fun _ => none) [105] (some [9, 10])) [105]
      [111] .ifLineOnlyTab [[9]] := by
  rw [emptiesLines_iff_process (by decide) (by rfl)]
  decide

end Call

end FrameCode.LibFile
