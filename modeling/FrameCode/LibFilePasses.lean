import FrameCode.LibFile
import Mathlib.Data.List.SplitBy

/-!
# What the passes of `Do_File` make of a file

The passes for blank lines, line ends and indentation, against what they are for.
-/

namespace FrameCode.LibFile

open CText LineReading

/-! ## Calls -/

/-- A mode that is one pass. -/
def Flag.Single (flag : Flag) : Prop := flag ≠ .fourKgDqbq ∧ flag ≠ .tabDqbq

instance (flag : Flag) : Decidable flag.Single := inferInstanceAs (Decidable (_ ∧ _))

/-- The name of the output file of a call. -/
def outputName (inFile outFile : List UInt8) : List UInt8 :=
  if outFile = [] then inFile ++ outtmp else outFile

/-- What a call that does not fail leaves in its output file. -/
def output (lineMax : Nat) (before : Nat → UInt8) (files : Files) (inFile outFile : List UInt8)
    (flag : Flag) : Option (List UInt8) :=
  (doFile lineMax before files inFile outFile flag).bind fun outcome =>
    if outcome.failed then none else outcome.files outcome.outFile

/-- What a second call, on the output file of the first, leaves in its own. -/
def outputTwice (lineMax : Nat) (before before' : Nat → UInt8) (files : Files)
    (inFile outFile nextFile : List UInt8) (flag flag' : Flag) : Option (List UInt8) :=
  (doFile lineMax before files inFile outFile flag).bind fun outcome =>
    if outcome.failed then none
    else output lineMax before' outcome.files outcome.outFile nextFile flag'

/-- What a call reads of its input file, once its output file is emptied. -/
def readBy (files : Files) (inFile outFile : List UInt8) : Option (List UInt8) :=
  Function.update files (outputName inFile outFile) (some []) inFile

section Calls

variable {lineMax : Nat} {before before' : Nat → UInt8} {files : Files}
variable {inFile outFile nextFile content : List UInt8} {flag flag' : Flag}

theorem doFile_single (single : flag.Single) :
    doFile lineMax before files inFile outFile flag =
      (openAndProcess lineMax before files inFile outFile flag).map fun result =>
        ⟨result.1, result.2, false⟩ := by
  obtain ⟨notFour, notTab⟩ := single
  cases flag with
  | fourKgDqbq => exact absurd rfl notFour
  | tabDqbq => exact absurd rfl notTab
  | _ => rfl

theorem readBy_eq (found : files inFile = some content) :
    readBy files inFile outFile =
      some (if outputName inFile outFile = inFile then [] else content) := by
  unfold readBy
  by_cases same : outputName inFile outFile = inFile
  · rw [same, Function.update_self, if_pos rfl]
  · rw [Function.update_of_ne (Ne.symm same), found, if_neg same]

/-- A call with one pass writes what `process` makes of what it reads. -/
theorem doFile_eq (single : flag.Single) (found : files inFile = some content) :
    doFile lineMax before files inFile outFile flag =
      (process lineMax before flag
        (if outputName inFile outFile = inFile then [] else content)).map fun output =>
          ⟨Function.update files (outputName inFile outFile) (some output),
            outputName inFile outFile, false⟩ := by
  have opened : Function.update files (outputName inFile outFile) (some []) inFile =
      some (if outputName inFile outFile = inFile then [] else content) := readBy_eq found
  rw [doFile_single single, openAndProcess, found]
  change (((Function.update files (outputName inFile outFile) (some []) inFile).bind
    (process lineMax before flag)).map _).map _ = _
  rw [opened, Option.bind_some, Option.map_map]
  congr 1
  funext output
  simp [outputName]

theorem output_eq (single : flag.Single) (found : files inFile = some content) :
    output lineMax before files inFile outFile flag =
      process lineMax before flag
        (if outputName inFile outFile = inFile then [] else content) := by
  rw [output, doFile_eq single found]
  cases process lineMax before flag
      (if outputName inFile outFile = inFile then [] else content) with
  | none => rfl
  | some written => simp

theorem outputTwice_eq (single : flag.Single) (single' : flag'.Single)
    (found : files inFile = some content) :
    outputTwice lineMax before before' files inFile outFile nextFile flag flag' =
      (process lineMax before flag
        (if outputName inFile outFile = inFile then [] else content)).bind fun middle =>
          process lineMax before' flag'
            (if outputName (outputName inFile outFile) nextFile = outputName inFile outFile then []
              else middle) := by
  rw [outputTwice, doFile_eq single found]
  cases process lineMax before flag
      (if outputName inFile outFile = inFile then [] else content) with
  | none => rfl
  | some middle =>
      exact output_eq single' (Function.update_self ..)

theorem process_nil (lineMax : Nat) (before : Nat → UInt8) (flag : Flag) :
    process lineMax before flag [] = some [] := by
  unfold process
  split
  · rfl
  · rw [pieces_nil]
    rfl

end Calls

/-! ## Blank lines -/

section BlankLines

variable {byte : UInt8} {content : List UInt8}

/-- Each newline with the newlines next to it; every other byte for itself. -/
def newlineRuns (content : List UInt8) : List (List UInt8) :=
  content.splitBy fun first second => first == 10 && second == 10

/-- Every run of newlines is cut to two of them. -/
def squeezed (content : List UInt8) : List UInt8 := (newlineRuns content).flatMap (List.take 2)

theorem newlineRuns_replicate (count : Nat) : newlineRuns (List.replicate (count + 1) 10) =
    [List.replicate (count + 1) 10] := by
  apply List.splitBy_of_isChain
  · simp
  · exact List.isChain_replicate_of_rel _ (by decide)

theorem squeezed_replicate (count : Nat) :
    squeezed (List.replicate count 10) = List.replicate (min count 2) 10 := by
  cases count with
  | zero => rfl
  | succ count => simp [squeezed, newlineRuns_replicate, Nat.min_comm]

/-- Another byte ends a run. -/
theorem squeezed_replicate_append (other : byte ≠ 10) (count : Nat) (rest : List UInt8) :
    squeezed (List.replicate count 10 ++ byte :: rest) =
      List.replicate (min count 2) 10 ++ byte :: squeezed rest := by
  have split : newlineRuns (List.replicate count 10 ++ byte :: rest) =
      newlineRuns (List.replicate count 10) ++ [byte] :: newlineRuns rest := by
    rw [newlineRuns, List.splitBy_append (by simp [other]), ← List.singleton_append,
      List.splitBy_append (by simp [other])]
    rfl
  rw [squeezed, split, List.flatMap_append, List.flatMap_cons]
  exact congrArg₂ _ (squeezed_replicate count) rfl

/-- The newlines before another byte. -/
theorem multipleHhToTwoHh_other (other : byte ≠ 10) (count : Nat) (rest : List UInt8) :
    multipleHhToTwoHh count (byte :: rest) =
      List.replicate (min count 2) 10 ++ byte :: multipleHhToTwoHh 0 rest := by
  rw [multipleHhToTwoHh, if_neg other]
  match count with
  | 0 => rfl
  | 1 => rfl
  | count + 2 => simp

theorem multipleHhToTwoHh_newline (count : Nat) (rest : List UInt8) :
    multipleHhToTwoHh count (10 :: rest) = multipleHhToTwoHh (count + 1) rest := by
  rw [multipleHhToTwoHh, if_pos rfl]

theorem multipleHhToTwoHh_replicate (count few : Nat) (rest : List UInt8) :
    multipleHhToTwoHh count (List.replicate few 10 ++ rest) =
      multipleHhToTwoHh (count + few) rest := by
  induction few generalizing count with
  | zero => rfl
  | succ few ih =>
      rw [List.replicate_succ, List.cons_append, multipleHhToTwoHh_newline, ih, Nat.add_assoc,
        Nat.add_comm 1]

theorem replicate_append_newline (count : Nat) (rest : List UInt8) :
    List.replicate count 10 ++ 10 :: rest = List.replicate (count + 1) 10 ++ rest := by
  rw [List.replicate_succ', List.append_assoc]
  rfl

/-- Runs of newlines are squeezed when another byte follows them. -/
theorem multipleHhToTwoHh_eq (count : Nat)
    (unfinished : (List.replicate count 10 ++ content).getLast? ≠ some 10) :
    multipleHhToTwoHh count content = squeezed (List.replicate count 10 ++ content) := by
  induction content generalizing count with
  | nil =>
      cases count with
      | zero => rfl
      | succ count => simp [List.getLast?_replicate] at unfinished
  | cons byte rest ih =>
      by_cases newline : byte = 10
      · subst newline
        rw [replicate_append_newline] at unfinished ⊢
        rw [multipleHhToTwoHh_newline]
        exact ih (count + 1) unfinished
      · rw [multipleHhToTwoHh_other newline, squeezed_replicate_append newline]
        have later : (List.replicate 0 10 ++ rest).getLast? ≠ some 10 := by
          intro ends
          apply unfinished
          rw [List.replicate_zero, List.nil_append] at ends
          rw [List.getLast?_append, List.getLast?_cons, ends]
          rfl
        rw [ih 0 later]
        rfl

/-- Newlines at the end of the file are never written. -/
theorem getLast?_multipleHhToTwoHh (count : Nat) (content : List UInt8) :
    (multipleHhToTwoHh count content).getLast? ≠ some 10 := by
  induction content generalizing count with
  | nil => simp [multipleHhToTwoHh]
  | cons byte rest ih =>
      by_cases newline : byte = 10
      · rw [newline, multipleHhToTwoHh_newline]
        exact ih _
      · rw [multipleHhToTwoHh_other newline, List.getLast?_append, List.getLast?_cons]
        cases last : (multipleHhToTwoHh 0 rest).getLast? with
        | none => simpa using newline
        | some lastByte =>
            have different := ih 0
            rw [last] at different
            simpa using different

theorem getLast?_squeezed (count : Nat)
    (ends : (List.replicate count 10 ++ content).getLast? = some 10) :
    (squeezed (List.replicate count 10 ++ content)).getLast? = some 10 := by
  induction content generalizing count with
  | nil =>
      rw [List.append_nil] at ends ⊢
      rw [squeezed_replicate, List.getLast?_replicate]
      rw [List.getLast?_replicate] at ends
      simp at ends ⊢
      omega
  | cons byte rest ih =>
      by_cases newline : byte = 10
      · subst newline
        rw [replicate_append_newline] at ends ⊢
        exact ih (count + 1) ends
      · rw [squeezed_replicate_append newline, List.getLast?_append, List.getLast?_cons]
        rw [List.getLast?_append, List.getLast?_cons] at ends
        cases last : rest.getLast? with
        | none => simp [last, newline] at ends
        | some lastByte =>
            have later : (List.replicate 0 10 ++ rest).getLast? = some 10 := by
              simpa [last] using ends
            have squeezedLast : (squeezed rest).getLast? = some 10 := ih 0 later
            rw [squeezedLast]
            rfl

/-- By induction on the content. -/
theorem multipleHhToTwoHh_idempotent (count : Nat) (content : List UInt8) :
    multipleHhToTwoHh 0 (multipleHhToTwoHh count content) = multipleHhToTwoHh count content := by
  induction content generalizing count with
  | nil => rfl
  | cons byte rest ih =>
      by_cases newline : byte = 10
      · rw [newline, multipleHhToTwoHh_newline]
        exact ih _
      · rw [multipleHhToTwoHh_other newline, multipleHhToTwoHh_replicate,
          multipleHhToTwoHh_other newline, ih]
        simp

theorem process_multipleHhToTwoHh (lineMax : Nat) (before : Nat → UInt8) (content : List UInt8) :
    process lineMax before .multipleHhToTwoHh content = some (multipleHhToTwoHh 0 content) := by
  rw [process, if_pos rfl]

theorem multipleHhToTwoHh_eq_squeezed_iff (content : List UInt8) :
    multipleHhToTwoHh 0 content = squeezed content ↔ content.getLast? ≠ some 10 := by
  constructor
  · intro same ends
    have last : (squeezed content).getLast? = some 10 := getLast?_squeezed 0 ends
    rw [← same] at last
    exact getLast?_multipleHhToTwoHh 0 content last
  · intro unfinished
    exact multipleHhToTwoHh_eq 0 unfinished

theorem squeezed_eq_nil_iff : squeezed content = [] ↔ content = [] := by
  constructor
  · intro nothing
    have short : ∀ run ∈ newlineRuns content, run.take 2 = [] := List.flatMap_eq_nil_iff.mp nothing
    have noRuns : newlineRuns content = [] := by
      refine List.eq_nil_iff_forall_not_mem.mpr fun run member => ?_
      rcases List.take_eq_nil_iff.mp (short run member) with two | empty
      · cases two
      · exact List.ne_nil_of_mem_splitBy member empty
    exact List.splitBy_eq_nil.mp noRuns
  · rintro rfl
    rfl

/-- A call in mode `d` squeezes the runs of newlines, and a second one on its output changes
nothing. -/
structure Squeezes (lineMax : Nat) (before before' : Nat → UInt8) (files : Files)
    (inFile outFile nextFile content : List UInt8) : Prop where
  squeezes : output lineMax before files inFile outFile .multipleHhToTwoHh =
    some (squeezed content)
  idempotent : outputTwice lineMax before before' files inFile outFile nextFile .multipleHhToTwoHh
      .multipleHhToTwoHh =
    output lineMax before files inFile outFile .multipleHhToTwoHh

end BlankLines

/-! ## Passes over the lines -/

section Lines

variable {lineMax : Nat} {before : Nat → UInt8} {flag : Flag} {content last : List UInt8}
variable {lines : List (List UInt8)}

/-- A file without NUL bytes: the text of what `fgets` has read is all of it. -/
theorem map_text_pieces {limit : Nat} (positive : 0 < limit) (noNul : 0 ∉ content) :
    (pieces 10 limit content).map text = pieces 10 limit content := by
  have same : ∀ piece ∈ pieces 10 limit content, text piece = piece := by
    intro piece member
    obtain ⟨-, inside⟩ := of_mem_pieces positive member
    rw [text, List.takeWhile_eq_self_iff]
    intro byte found
    simp only [bne_iff_ne]
    rintro rfl
    exact noNul (inside 0 found)
  rw [List.map_congr_left same, List.map_id']

/-- A pass that writes what it makes of each piece for itself. -/
theorem process_eq {f : List UInt8 → List UInt8} (wide : 1 < lineMax) (noNul : 0 ∉ content)
    (byLines : flag ≠ .multipleHhToTwoHh)
    (writes : ∀ indent, ∀ piece ∈ pieces 10 (lineMax - 1) content,
      lineOutput before flag indent piece = some (indent, f piece)) :
    process lineMax before flag content = some ((pieces 10 (lineMax - 1) content).flatMap f) := by
  rw [process, if_neg byLines, map_text_pieces (by omega) noNul]
  generalize pieces 10 (lineMax - 1) content = read at writes
  generalize Indent.start = indent
  induction read with
  | nil => rfl
  | cons piece read ih =>
      rw [linesOutput, writes indent piece (List.mem_cons_self ..)]
      simp only
      rw [ih fun indent piece member => writes indent piece (List.mem_cons_of_mem _ member)]
      rfl

theorem linesOutput_lines {g : List UInt8 → List UInt8}
    (writes : ∀ line ∈ lines, ∀ indent,
      lineOutput before flag indent (line ++ [10]) = some (indent, g line))
    (rest : List (List UInt8)) (indent : Indent) :
    linesOutput before flag indent (lines.map (fun line => line ++ [10]) ++ rest) =
      (linesOutput before flag indent rest).map (lines.flatMap g ++ ·) := by
  induction lines with
  | nil => simp
  | cons line lines ih =>
      rw [List.forall_mem_cons] at writes
      rw [List.map_cons, List.cons_append, linesOutput, writes.1 indent]
      simp only
      rw [ih writes.2, Option.map_map]
      simp [Function.comp_def]

/-- A pass over lines that fit into the buffer and end in newlines. -/
theorem process_joinLines {g : List UInt8 → List UInt8} (byLines : flag ≠ .multipleHhToTwoHh)
    (noNul : 0 ∉ joinLines 10 lines last) (wide : 1 < lineMax)
    (lawful : ∀ line ∈ lines, 10 ∉ line ∧ line.length < lineMax - 1)
    (lastLawful : 10 ∉ last ∧ last.length ≤ lineMax - 1)
    (writes : ∀ line ∈ lines, ∀ indent,
      lineOutput before flag indent (line ++ [10]) = some (indent, g line))
    (writesLast : last ≠ [] → ∀ indent, lineOutput before flag indent last = some (indent, last)) :
    process lineMax before flag (joinLines 10 lines last) = some (lines.flatMap g ++ last) := by
  rw [process, if_neg byLines, map_text_pieces (by omega) noNul, pieces_joinLines lawful,
    linesOutput_lines writes, pieces_short lastLawful.1 lastLawful.2]
  by_cases nothing : last = []
  · simp [nothing, linesOutput]
  · rw [if_neg nothing]
    simp [linesOutput, writesLast nothing]

end Lines

/-! ## Line ends -/

section LineEnds

variable {before : Nat → UInt8} {line : List UInt8}

theorem byteBack_one_append (byte : UInt8) : byteBack before (line ++ [byte]) 1 = byte := by
  simp [byteBack]

theorem byteBack_two_append (first second : UInt8) :
    byteBack before (line ++ [first, second]) 2 = first := by
  simp [byteBack]

/-- The byte before the newline of a line that is not empty. -/
theorem byteBack_two_mem (nonempty : line ≠ []) : byteBack before (line ++ [10]) 2 ∈ line := by
  obtain ⟨init, byte, rfl⟩ := (List.eq_nil_or_concat' line).resolve_left nonempty
  rw [List.append_assoc, List.singleton_append, byteBack_two_append]
  simp

theorem byteBack_one_mem (nonempty : line ≠ []) : byteBack before line 1 ∈ line := by
  obtain ⟨init, byte, rfl⟩ := (List.eq_nil_or_concat' line).resolve_left nonempty
  rw [byteBack_one_append]
  simp

theorem unixHhToWindowsHh_line (nonempty : line ≠ []) (noCr : 13 ∉ line) :
    unixHhToWindowsHh before (line ++ [10]) = some (line ++ [13, 10]) := by
  have different : byteBack before (line ++ [10]) 2 ≠ 13 := fun same =>
    noCr (same ▸ byteBack_two_mem nonempty)
  rw [unixHhToWindowsHh, if_pos ⟨byteBack_one_append 10, different⟩]
  simp

theorem unixHhToWindowsHh_converted :
    unixHhToWindowsHh before (line ++ [13, 10]) = some (line ++ [13, 10]) := by
  rw [unixHhToWindowsHh, if_neg]
  rintro ⟨-, different⟩
  exact different (byteBack_two_append 13 10)

theorem windowsHhToUnixHh_converted :
    windowsHhToUnixHh before (line ++ [13, 10]) = some (line ++ [10]) := by
  have newline : byteBack before (line ++ [13, 10]) 1 = 10 := by
    simp [byteBack]
  rw [windowsHhToUnixHh, if_pos ⟨newline, byteBack_two_append 13 10⟩]
  simp

theorem unixHhToWindowsHh_last (nonempty : line ≠ []) (unfinished : 10 ∉ line) :
    unixHhToWindowsHh before line = some line := by
  rw [unixHhToWindowsHh, if_neg]
  rintro ⟨newline, -⟩
  exact unfinished (newline ▸ byteBack_one_mem nonempty)

theorem windowsHhToUnixHh_last (nonempty : line ≠ []) (unfinished : 10 ∉ line) :
    windowsHhToUnixHh before line = some line := by
  rw [windowsHhToUnixHh, if_neg]
  rintro ⟨newline, -⟩
  exact unfinished (newline ▸ byteBack_one_mem nonempty)

/-- The places of the line buffer that the modes `u` and `w` test. -/
def testedPlaces (before : Nat → UInt8) (line : List UInt8) : List Int :=
  (line.length - 1 : Int) ::
    if byteBack before line 1 = 10 then [(line.length - 2 : Int)] else []

/-- A pass tests nothing outside of the line buffer. -/
def TestsInside (lineMax : Nat) (before : Nat → UInt8) (content : List UInt8) : Prop :=
  ∀ line ∈ (pieces 10 (lineMax - 1) content).map text, ∀ place ∈ testedPlaces before line,
    0 ≤ place ∧ place < lineMax

/-- Windows line ends and back, whatever stands in front of the line buffer. -/
structure PassesConvertBack (lineMax : Nat) (content : List UInt8) : Prop where
  back : ∀ before before', (process lineMax before .unixHhToWindowsHh content).bind
    (process lineMax before' .windowsHhToUnixHh) = some content
  twice : ∀ before before', (process lineMax before .unixHhToWindowsHh content).bind
    (process lineMax before' .unixHhToWindowsHh) =
      process lineMax before .unixHhToWindowsHh content
  inside : ∀ before, TestsInside lineMax before content
  insideConverted : ∀ before before' converted,
    process lineMax before .unixHhToWindowsHh content = some converted →
      TestsInside lineMax before' converted

/-- A call in mode `w` and then one in mode `u` or `w` on its output file. -/
structure ConvertsBack (lineMax : Nat) (files : Files) (inFile outFile nextFile : List UInt8)
    (content : List UInt8) : Prop where
  back : ∀ before before', outputTwice lineMax before before' files inFile outFile nextFile
    .unixHhToWindowsHh .windowsHhToUnixHh = some content
  twice : ∀ before before', outputTwice lineMax before before' files inFile outFile nextFile
      .unixHhToWindowsHh .unixHhToWindowsHh =
    output lineMax before files inFile outFile .unixHhToWindowsHh
  inside : ∀ before, ∀ read ∈ readBy files inFile outFile, TestsInside lineMax before read
  insideNext : ∀ before before',
    ∀ outcome ∈ doFile lineMax before files inFile outFile .unixHhToWindowsHh,
      ∀ read ∈ readBy outcome.files outcome.outFile nextFile, TestsInside lineMax before' read

end LineEnds

section Conversion

variable {lineMax : Nat} {before : Nat → UInt8} {lines : List (List UInt8)} {last : List UInt8}

/-- An empty line makes a pass test the byte before the buffer. -/
theorem not_testsInside {content : List UInt8} (empty : [10] ∈ pieces 10 (lineMax - 1) content) :
    ¬ TestsInside lineMax before content := by
  intro inside
  have tested : (-1 : Int) ∈ testedPlaces before [10] := by simp [testedPlaces, byteBack]
  have outside := (inside [10] (List.mem_map.mpr ⟨_, empty, rfl⟩) (-1) tested).1
  exact absurd outside (by decide)

/-- Lines with a byte before their newline are tested inside. -/
theorem testsInside_joinLines (wide : 1 < lineMax) (noNul : 0 ∉ joinLines 10 lines last)
    (lawful : ∀ line ∈ lines, 10 ∉ line ∧ line.length < lineMax - 1)
    (nonempty : ∀ line ∈ lines, line ≠ [])
    (lastLawful : 10 ∉ last ∧ last.length ≤ lineMax - 1) :
    TestsInside lineMax before (joinLines 10 lines last) := by
  rw [TestsInside, map_text_pieces (by omega) noNul, pieces_joinLines lawful,
    pieces_short lastLawful.1 lastLawful.2, List.forall_mem_append, List.forall_mem_map]
  constructor
  · intro line member place tested
    have short := (lawful line member).2
    have positive := List.length_pos_iff.mpr (nonempty line member)
    simp only [testedPlaces, byteBack_one_append, if_pos, List.length_append, List.length_singleton,
      List.mem_cons, List.not_mem_nil, or_false] at tested
    omega
  · intro line member place tested
    by_cases nothing : last = []
    · rw [if_pos nothing] at member
      cases member
    · rw [if_neg nothing, List.mem_singleton] at member
      subst member
      have positive := List.length_pos_iff.mpr nothing
      have unfinished : byteBack before line 1 ≠ 10 := fun newline =>
        lastLawful.1 (newline ▸ byteBack_one_mem nothing)
      simp only [testedPlaces, if_neg unfinished, List.mem_singleton] at tested
      omega

/-- Lines with carriage returns are one byte longer. -/
theorem converted_lawful {limit : Nat}
    (lawful : ∀ line ∈ lines, 10 ∉ line ∧ line.length < limit) :
    ∀ line ∈ lines.map fun line => line ++ [13], 10 ∉ line ∧ line.length ≤ limit := by
  rw [List.forall_mem_map]
  intro line member
  obtain ⟨single, short⟩ := lawful line member
  constructor
  · simpa using single
  · rw [List.length_append, List.length_singleton]
    exact short

theorem converted_lessThan (lawful : ∀ line ∈ lines, 10 ∉ line ∧ line.length + 2 < lineMax) :
    ∀ line ∈ lines.map fun line => line ++ [13], 10 ∉ line ∧ line.length < lineMax - 1 := by
  intro line member
  have shorter : ∀ line ∈ lines, 10 ∉ line ∧ line.length < lineMax - 2 := fun line member =>
    ⟨(lawful line member).1, by have := (lawful line member).2; omega⟩
  obtain ⟨source, sourceMember, -⟩ := List.mem_map.mp member
  have room := (lawful source sourceMember).2
  obtain ⟨single, short⟩ := converted_lawful shorter line member
  exact ⟨single, by omega⟩

/-- The file with Windows line ends. -/
theorem process_unixHhToWindowsHh (before : Nat → UInt8) (wide : 1 < lineMax)
    (noNul : 0 ∉ joinLines 10 lines last) (noCr : ∀ line ∈ lines, 13 ∉ line)
    (lawful : ∀ line ∈ lines, 10 ∉ line ∧ line.length < lineMax - 1)
    (nonempty : ∀ line ∈ lines, line ≠ [])
    (lastLawful : 10 ∉ last ∧ last.length ≤ lineMax - 1) :
    process lineMax before .unixHhToWindowsHh (joinLines 10 lines last) =
      some (joinLines 10 (lines.map fun line => line ++ [13]) last) := by
  rw [process_joinLines (g := fun line => line ++ [13, 10]) (by decide) noNul wide lawful lastLawful]
  · simp [joinLines, List.flatMap_map]
  · intro line member indent
    rw [lineOutput, unixHhToWindowsHh_line (nonempty line member) (noCr line member)]
    rfl
  · intro some indent
    rw [lineOutput, unixHhToWindowsHh_last some lastLawful.1]
    rfl

/-- Both passes on such a file. -/
theorem process_converted (before : Nat → UInt8) (wide : 1 < lineMax)
    (noNul : 0 ∉ joinLines 10 lines last)
    (lawful : ∀ line ∈ lines, 10 ∉ line ∧ line.length + 2 < lineMax)
    (lastLawful : 10 ∉ last ∧ last.length ≤ lineMax - 1) :
    process lineMax before .windowsHhToUnixHh
        (joinLines 10 (lines.map fun line => line ++ [13]) last) = some (joinLines 10 lines last) ∧
      process lineMax before .unixHhToWindowsHh
        (joinLines 10 (lines.map fun line => line ++ [13]) last) =
          some (joinLines 10 (lines.map fun line => line ++ [13]) last) := by
  have noNul' : 0 ∉ joinLines 10 (lines.map fun line => line ++ [13]) last := by
    simpa [joinLines] using noNul
  have lawful' := converted_lessThan lawful
  constructor
  · rw [process_joinLines (g := fun line => line.dropLast ++ [10]) (by decide) noNul' wide lawful'
      lastLawful]
    · simp [joinLines, List.flatMap_map]
    · rw [List.forall_mem_map]
      intro line member indent
      rw [List.append_assoc, List.singleton_append, lineOutput, windowsHhToUnixHh_converted,
        List.dropLast_concat]
      rfl
    · intro some indent
      rw [lineOutput, windowsHhToUnixHh_last some lastLawful.1]
      rfl
  · rw [process_joinLines (g := fun line => line ++ [10]) (by decide) noNul' wide lawful'
      lastLawful, joinLines]
    · rw [List.forall_mem_map]
      intro line member indent
      rw [List.append_assoc, List.singleton_append, lineOutput, unixHhToWindowsHh_converted]
      rfl
    · intro some indent
      rw [lineOutput, unixHhToWindowsHh_last some lastLawful.1]
      rfl

/-- Lines that are not empty and leave room for a carriage return are converted back. -/
theorem passesConvertBack_joinLines (wide : 1 < lineMax) (noNul : 0 ∉ joinLines 10 lines last)
    (noCr : ∀ line ∈ lines, 13 ∉ line) (nonempty : ∀ line ∈ lines, line ≠ [])
    (room : ∀ line ∈ lines, 10 ∉ line ∧ line.length + 2 < lineMax)
    (lastLawful : 10 ∉ last ∧ last.length ≤ lineMax - 1) :
    PassesConvertBack lineMax (joinLines 10 lines last) := by
  have lawful : ∀ line ∈ lines, 10 ∉ line ∧ line.length < lineMax - 1 := by
    intro line member
    obtain ⟨single, roomy⟩ := room line member
    exact ⟨single, by omega⟩
  have converted (before : Nat → UInt8) :=
    process_unixHhToWindowsHh before wide noNul noCr lawful nonempty lastLawful
  have again (before : Nat → UInt8) := process_converted before wide noNul room lastLawful
  constructor
  case back =>
    intro before before'
    rw [converted, Option.bind_some, (again before').1]
  case twice =>
    intro before before'
    rw [converted, Option.bind_some, (again before').2]
  case inside =>
    intro before
    exact testsInside_joinLines wide noNul lawful nonempty lastLawful
  case insideConverted =>
    intro before before' result result_eq
    rw [converted, Option.some.injEq] at result_eq
    subst result_eq
    apply testsInside_joinLines wide _ (converted_lessThan room) _ lastLawful
    · simpa [joinLines] using noNul
    · simp

end Conversion

/-- The conversion to Windows line ends and back, on lines that are shorter than the buffer less
one byte.  An empty line makes both passes test the byte before the buffer, and a line that
fills the buffer with its newline leaves the newline alone once it has a carriage return. -/
theorem passesConvertBack_iff {lineMax : Nat} {content : List UInt8} (noNul : 0 ∉ content)
    (noCr : 13 ∉ content)
    (short : ∀ line ∈ (splitLines 10 content).1, line.length < lineMax - 1)
    (shortLast : (splitLines 10 content).2.length < lineMax - 1) :
    PassesConvertBack lineMax content ↔
      ∀ line ∈ (splitLines 10 content).1, line ≠ [] ∧ line.length < lineMax - 2 := by
  have wide : 1 < lineMax := by omega
  obtain ⟨unstopped, lastUnstopped⟩ := stop_notMem_splitLines 10 content
  have content_eq := joinLines_splitLines 10 content
  generalize (splitLines 10 content).1 = lines at *
  generalize (splitLines 10 content).2 = last at *
  subst content_eq
  have noCrLines : ∀ line ∈ lines, 13 ∉ line := ((notMem_joinLines (by decide)).mp noCr).1
  have lawful : ∀ line ∈ lines, 10 ∉ line ∧ line.length < lineMax - 1 := fun line member =>
    ⟨unstopped line member, short line member⟩
  have lastLawful : 10 ∉ last ∧ last.length ≤ lineMax - 1 := ⟨lastUnstopped, shortLast.le⟩
  constructor
  · intro converts
    have nonempty : ∀ line ∈ lines, line ≠ [] := by
      rintro line member rfl
      refine not_testsInside ?_ (converts.inside fun _ => 0)
      rw [pieces_joinLines lawful]
      exact List.mem_append_left _ (List.mem_map.mpr ⟨[], member, rfl⟩)
    intro line member
    refine ⟨nonempty line member, ?_⟩
    by_contra long
    have converted := process_unixHhToWindowsHh (fun _ => 0) wide noNul noCrLines lawful nonempty
      lastLawful
    refine not_testsInside ?_ (converts.insideConverted (fun _ => 0) (fun _ => 0) _ converted)
    apply stop_mem_pieces (by omega) (converted_lawful lawful)
      (List.mem_map.mpr ⟨line, member, rfl⟩)
    have bounded := short line member
    rw [List.length_append, List.length_singleton]
    omega
  · intro fits
    apply passesConvertBack_joinLines wide noNul noCrLines _ _ lastLawful
    · exact fun line member => (fits line member).1
    · intro line member
      have short := (fits line member).2
      exact ⟨unstopped line member, by omega⟩

section ConvertingCalls

variable {lineMax : Nat} {files : Files} {inFile outFile nextFile content : List UInt8}

theorem testsInside_nil (lineMax : Nat) (before : Nat → UInt8) : TestsInside lineMax before [] := by
  intro line member
  rw [pieces_nil] at member
  cases member

/-- What the second call reads. -/
theorem readBy_next (found : files inFile = some content) (before : Nat → UInt8) {outcome : Outcome}
    (done : outcome ∈ doFile lineMax before files inFile outFile .unixHhToWindowsHh)
    {read : List UInt8} (taken : read ∈ readBy outcome.files outcome.outFile nextFile) :
    ∃ middle, process lineMax before .unixHhToWindowsHh
        (if outputName inFile outFile = inFile then [] else content) = some middle ∧
      read = if outputName (outputName inFile outFile) nextFile = outputName inFile outFile then []
        else middle := by
  rw [Option.mem_def, doFile_eq (by decide) found, Option.map_eq_some_iff] at done
  obtain ⟨middle, made, rfl⟩ := done
  rw [Option.mem_def, readBy_eq (Function.update_self ..), Option.some.injEq] at taken
  exact ⟨middle, made, taken.symm⟩

/-- Calls into other files do what the passes do. -/
theorem convertsBack_of_apart (found : files inFile = some content)
    (apart : outputName inFile outFile ≠ inFile)
    (nextApart : outputName (outputName inFile outFile) nextFile ≠ outputName inFile outFile) :
    ConvertsBack lineMax files inFile outFile nextFile content ↔
      PassesConvertBack lineMax content := by
  have first (before : Nat → UInt8) :=
    @output_eq lineMax before files inFile outFile content .unixHhToWindowsHh (by decide) found
  have second (before before' : Nat → UInt8) (flag' : Flag) (single : flag'.Single) :=
    @outputTwice_eq lineMax before before' files inFile outFile nextFile content .unixHhToWindowsHh
      flag' (by decide) single found
  simp only [if_neg apart, if_neg nextApart] at first second
  have reads := @readBy_eq files inFile outFile content found
  rw [if_neg apart] at reads
  constructor
  · rintro ⟨back, twice, inside, insideNext⟩
    refine ⟨fun before before' => ?_, fun before before' => ?_, fun before => ?_, ?_⟩
    · rw [← back before before']
      exact (second before before' _ (by decide)).symm
    · exact (second before before' _ (by decide)).symm.trans
        ((twice before before').trans (first before))
    · exact inside before content reads
    · intro before before' converted made
      have done := @doFile_eq lineMax before files inFile outFile content .unixHhToWindowsHh
        (by decide) found
      rw [if_neg apart, made, Option.map_some] at done
      refine insideNext before before' _ done converted ?_
      rw [Option.mem_def, readBy_eq (Function.update_self ..), if_neg nextApart]
  · rintro ⟨back, twice, inside, insideConverted⟩
    refine ⟨fun before before' => ?_, fun before before' => ?_, fun before read taken => ?_, ?_⟩
    · rw [second before before' _ (by decide)]
      exact back before before'
    · rw [second before before' _ (by decide), first before]
      exact twice before before'
    · cases reads.symm.trans taken
      exact inside before
    · intro before before' outcome done read taken
      obtain ⟨middle, made, rfl⟩ := readBy_next found before done taken
      rw [if_neg apart] at made
      rw [if_neg nextApart]
      exact insideConverted before before' middle made

theorem convertsBack_nil (found : files inFile = some []) :
    ConvertsBack lineMax files inFile outFile nextFile [] := by
  have first (before : Nat → UInt8) :=
    @output_eq lineMax before files inFile outFile [] .unixHhToWindowsHh (by decide) found
  have second (before before' : Nat → UInt8) (flag' : Flag) (single : flag'.Single) :=
    @outputTwice_eq lineMax before before' files inFile outFile nextFile [] .unixHhToWindowsHh
      flag' (by decide) single found
  simp only [ite_self, process_nil, Option.bind_some] at first second
  refine ⟨fun before before' => second before before' _ (by decide), fun before before' => ?_,
    fun before read taken => ?_, fun before before' outcome done read taken => ?_⟩
  · rw [second before before' _ (by decide), first before]
  · rw [Option.mem_def, readBy_eq found, ite_self, Option.some.injEq] at taken
    exact taken ▸ testsInside_nil lineMax before
  · obtain ⟨middle, made, rfl⟩ := readBy_next found before done taken
    rw [ite_self, process_nil, Option.some.injEq] at made
    rw [← made, ite_self]
    exact testsInside_nil lineMax before'

/-- A call whose output file is its input file reads nothing. -/
theorem apart_of_convertsBack (found : files inFile = some content) (nonempty : content ≠ [])
    (converts : ConvertsBack lineMax files inFile outFile nextFile content) :
    outputName inFile outFile ≠ inFile ∧
      outputName (outputName inFile outFile) nextFile ≠ outputName inFile outFile := by
  have back := converts.back (fun _ => 0) fun _ => 0
  rw [outputTwice_eq (by decide) (by decide) found] at back
  constructor
  · intro same
    rw [if_pos same, process_nil, Option.bind_some, ite_self, process_nil,
      Option.some.injEq] at back
    exact nonempty back.symm
  · intro same
    simp only [if_pos same, process_nil] at back
    obtain ⟨middle, -, back⟩ := Option.bind_eq_some_iff.mp back
    exact nonempty (Option.some.inj back).symm

/-- The conversion to Windows line ends and back by two calls, on lines that are shorter than the
buffer less one byte, is right exactly when the file is empty or else neither output file is the
input file of its call and no line is empty or as long as the buffer less two bytes. -/
theorem convertsBack_iff (found : files inFile = some content) (noNul : 0 ∉ content)
    (noCr : 13 ∉ content)
    (short : ∀ line ∈ (splitLines 10 content).1, line.length < lineMax - 1)
    (shortLast : (splitLines 10 content).2.length < lineMax - 1) :
    ConvertsBack lineMax files inFile outFile nextFile content ↔
      content = [] ∨ (outputName inFile outFile ≠ inFile ∧
        outputName (outputName inFile outFile) nextFile ≠ outputName inFile outFile ∧
        ∀ line ∈ (splitLines 10 content).1, line ≠ [] ∧ line.length < lineMax - 2) := by
  have passes := passesConvertBack_iff noNul noCr short shortLast
  by_cases nothing : content = []
  · subst nothing
    exact iff_of_true (convertsBack_nil found) (Or.inl rfl)
  · rw [or_iff_right nothing, ← passes]
    constructor
    · intro converts
      obtain ⟨apart, nextApart⟩ := apart_of_convertsBack found nothing converts
      exact ⟨apart, nextApart, (convertsBack_of_apart found apart nextApart).mp converts⟩
    · rintro ⟨apart, nextApart, converts⟩
      exact (convertsBack_of_apart found apart nextApart).mpr converts

end ConvertingCalls

/-- The file `"ab\nc"`. -/
theorem convertsBack_lines :
    ConvertsBack 40960 (Function.update (fun _ => none) [105] (some [97, 98, 10, 99])) [105] [111]
      [] [97, 98, 10, 99] := by
  rw [convertsBack_iff (by rfl) (by decide) (by decide)]
  all_goals simp [splitLines, outputName, outtmp]

/-- The file with one empty line. -/
theorem not_convertsBack_emptyLine :
    ¬ ConvertsBack 40960 (Function.update (fun _ => none) [105] (some [10])) [105] [111] []
      [10] := by
  intro converts
  refine not_testsInside ?_ (converts.inside (fun _ => 0) [10] rfl)
  rw [show [10] = joinLines (10 : UInt8) [[]] [] from rfl, pieces_joinLines (by simp)]
  exact List.mem_append_left _ (List.mem_singleton_self _)

end FrameCode.LibFile
