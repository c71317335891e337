import FrameCode.CText
import FrameCode.LineReading

/-!
# Reading the lines of a file

`GetFileLine_Malloc` measures the next line, seeks back and reads it into a block of its size.
`GetFileRowCount` counts lines by the byte at the terminator of what it has read, which is never a
newline.
-/

namespace FrameCode.LibFile

open CText LineReading

/-! ## Streams -/

/-- A file that is open for reading. -/
structure Stream where
  content : List UInt8
  position : Nat

namespace Stream

/-- `fgetc`; `EOF` is `none`. -/
def fgetc (fp : Stream) : Option UInt8 × Stream :=
  match fp.content[fp.position]? with
  | none => (none, fp)
  | some byte => (some byte, { fp with position := fp.position + 1 })

/-- `fseek` from the current position. -/
def fseek (fp : Stream) (offset : Int) : Stream :=
  { fp with position := (fp.position + offset).toNat }

/-- `fgets` into a buffer of the given size, with the bytes that it puts before the terminator. -/
def fgets (fp : Stream) (size : Nat) : List UInt8 × Stream :=
  let piece := (readPiece 10 (size - 1) (fp.content.drop fp.position)).1
  (piece, { fp with position := fp.position + piece.length })

end Stream

/-! ## One line -/

/-- The loop of `GetFileLine_Malloc`: the last character, `iCount_Line` and the stream. -/
def countLine : Nat → Stream → Nat → Option (Option UInt8 × Nat × Stream)
  | 0, _, _ => none
  | fuel + 1, fp, count =>
      match fp.fgetc with
      | (none, fp) => some (none, count + 1, fp)
      | (some byte, fp) =>
          if byte = 10 then some (some byte, count + 1, fp) else countLine fuel fp (count + 1)

/-- The value returned, the line at `*pOut` and the stream. -/
def getFileLineMalloc (fp : Stream) : Option (Int × Option (List UInt8) × Stream) :=
  match fp.fgetc with
  | (none, fp) => some (-2, none, fp)
  | (some _, fp) => do
      let fp := fp.fseek (-1)
      let (iChar, count, fp) ← countLine (fp.content.length + 1) fp 0
      match iChar with
      | some _ =>
          let (line, fp) := (fp.fseek (-count)).fgets count
          some (count - 1, some line, fp.fseek 1)
      | none =>
          let (line, fp) := (fp.fseek (-(count - 1))).fgets count
          some (-1, some line, fp)

/-- Call after call until one returns `-1` or `-2`: the lines with the values returned, and the last
of these. -/
def getFileLines : Nat → Stream → Option (List (Int × List UInt8) × Int)
  | 0, _ => none
  | fuel + 1, fp => do
      let (code, line, fp) ← getFileLineMalloc fp
      let delivered := line.toList.map (code, ·)
      if code = -1 ∨ code = -2 then some (delivered, code)
      else do
        let (later, last) ← getFileLines fuel fp
        some (delivered ++ later, last)

section Lines

variable {content line more : List UInt8} {position : Nat}

theorem fgetc_of_drop {byte : UInt8} (here : content.drop position = byte :: more) :
    Stream.fgetc ⟨content, position⟩ = (some byte, ⟨content, position + 1⟩) := by
  have found : content[position]? = some byte := by
    rw [← List.head?_drop, here]
    rfl
  rw [Stream.fgetc, found]

theorem fgetc_of_end (ended : content.drop position = []) :
    Stream.fgetc ⟨content, position⟩ = (none, ⟨content, position⟩) := by
  have found : content[position]? = none := by
    rw [← List.head?_drop, ended]
    rfl
  rw [Stream.fgetc, found]

/-- The loop runs over the bytes of the line. -/
theorem countLine_line (here : content.drop position = line ++ more) (single : 10 ∉ line)
    (fuel count : Nat) :
    countLine (line.length + fuel) ⟨content, position⟩ count =
      countLine fuel ⟨content, position + line.length⟩ (count + line.length) := by
  induction line generalizing position count with
  | nil => simp
  | cons byte line ih =>
      obtain ⟨different, single⟩ := List.ne_and_not_mem_of_not_mem_cons single
      have next : content.drop (position + 1) = line ++ more := by
        rw [← List.drop_drop, here]
        rfl
      rw [List.length_cons, Nat.add_right_comm, countLine, fgetc_of_drop here]
      simp only
      rw [if_neg (Ne.symm different), ih next single]
      simp only [Nat.add_assoc, Nat.add_comm 1]

theorem drop_length (here : content.drop position = line ++ more) :
    content.drop (position + line.length) = more := by
  rw [← List.drop_drop, here, List.drop_left]

/-- The loop counts the newline. -/
theorem countLine_newline (here : content.drop position = line ++ 10 :: more)
    (single : 10 ∉ line) :
    countLine (content.length + 1) ⟨content, position⟩ 0 =
      some (some 10, line.length + 1, ⟨content, position + line.length + 1⟩) := by
  have long : line.length ≤ content.length := by
    have total := congrArg List.length here
    simp at total
    omega
  obtain ⟨fuel, enough⟩ := Nat.exists_eq_add_of_le long
  rw [enough, Nat.add_assoc, countLine_line here single, countLine,
    fgetc_of_drop (drop_length here)]
  simp

/-- The loop counts the end of the file. -/
theorem countLine_end (here : content.drop position = line) (single : 10 ∉ line) :
    countLine (content.length + 1) ⟨content, position⟩ 0 =
      some (none, line.length + 1, ⟨content, position + line.length⟩) := by
  have long : line.length ≤ content.length := by
    have total := congrArg List.length here
    simp at total
    omega
  have all : content.drop position = line ++ [] := by rw [here, List.append_nil]
  obtain ⟨fuel, enough⟩ := Nat.exists_eq_add_of_le long
  rw [enough, Nat.add_assoc, countLine_line all single, countLine, fgetc_of_end (drop_length all)]
  simp

/-- `fgets` with one byte more than the line has. -/
theorem fgets_line (here : content.drop position = line ++ more) (single : 10 ∉ line) :
    Stream.fgets ⟨content, position⟩ (line.length + 1) =
      (line, ⟨content, position + line.length⟩) := by
  simp only [Stream.fgets, Nat.add_sub_cancel, here, readPiece_unstopped single]

theorem getFileLineMalloc_end (ended : content.drop position = []) :
    getFileLineMalloc ⟨content, position⟩ = some (-2, none, ⟨content, position⟩) := by
  rw [getFileLineMalloc, fgetc_of_end ended]

/-- The first character is put back. -/
theorem fgetc_fseek (here : content.drop position ≠ []) :
    ∃ byte fp, Stream.fgetc ⟨content, position⟩ = (some byte, fp) ∧
      fp.fseek (-1) = ⟨content, position⟩ := by
  obtain ⟨byte, more, first⟩ := List.exists_cons_of_ne_nil here
  refine ⟨byte, _, fgetc_of_drop first, ?_⟩
  simp [Stream.fseek]

theorem fseek_back (content : List UInt8) (position length : Nat) :
    Stream.fseek ⟨content, position + length⟩ (-length) = ⟨content, position⟩ := by
  simp [Stream.fseek]

theorem getFileLineMalloc_newline (here : content.drop position = line ++ 10 :: more)
    (single : 10 ∉ line) :
    getFileLineMalloc ⟨content, position⟩ =
      some ((line.length : Int), some line, ⟨content, position + line.length + 1⟩) := by
  obtain ⟨byte, fp, first, back⟩ := fgetc_fseek (show content.drop position ≠ [] by simp [here])
  have again := fseek_back content position (line.length + 1)
  rw [getFileLineMalloc, first]
  simp only [back, countLine_newline here single, bind, Option.bind, Nat.add_assoc, again,
    fgets_line here single]
  have forth : (⟨content, position + line.length⟩ : Stream).fseek 1 =
      ⟨content, position + (line.length + 1)⟩ := by
    simp only [Stream.fseek, Stream.mk.injEq, true_and]
    omega
  rw [forth]
  simp

theorem getFileLineMalloc_last (here : content.drop position = line) (single : 10 ∉ line)
    (nonempty : line ≠ []) :
    getFileLineMalloc ⟨content, position⟩ =
      some (-1, some line, ⟨content, position + line.length⟩) := by
  have all : content.drop position = line ++ [] := by rw [here, List.append_nil]
  obtain ⟨byte, fp, first, back⟩ := fgetc_fseek (here ▸ nonempty)
  rw [getFileLineMalloc, first]
  simp only [back, countLine_end here single, bind, Option.bind]
  have again : (⟨content, position + line.length⟩ : Stream).fseek (-((line.length + 1 : Nat) - 1)) =
      ⟨content, position⟩ := by simp [Stream.fseek]
  rw [again, fgets_line all single]

end Lines

/-! ## All lines -/

/-- The lines delivered make up the rest of the file. -/
structure Lossless (rest : List UInt8) (delivered : List (Int × List UInt8)) (last : Int) :
    Prop where
  rest_eq : rest = [10].intercalate (delivered.map Prod.snd) ++
    if last = -2 ∧ delivered ≠ [] then [10] else []
  lines : ∀ line ∈ delivered, 10 ∉ line.2
  lengths : ∀ line ∈ delivered, 0 ≤ line.1 → line.1 = line.2.length
  ends : last = -1 ∨ last = -2
  last_iff : last = -1 ↔ rest ≠ [] ∧ rest.getLast? ≠ some 10

/-- A line in front of the others. -/
theorem Lossless.cons {more line : List UInt8} {delivered : List (Int × List UInt8)} {last : Int}
    (lossless : Lossless more delivered last) (single : 10 ∉ line) :
    Lossless (line ++ 10 :: more) (((line.length : Int), line) :: delivered) last := by
  constructor
  case rest_eq =>
    cases delivered with
    | nil =>
        have nothing : more = [] := by simpa using lossless.rest_eq
        have ended : last = -2 := by
          apply lossless.ends.resolve_left
          rw [lossless.last_iff]
          simp [nothing]
        simp [nothing, ended]
    | cons next delivered =>
        have more_eq := lossless.rest_eq
        simp only [List.map_cons, List.intercalate_cons_cons, List.append_assoc] at more_eq ⊢
        simp [more_eq]
  case lines => simpa [single] using lossless.lines
  case lengths => simpa using lossless.lengths
  case ends => exact lossless.ends
  case last_iff =>
    rw [lossless.last_iff]
    cases more <;> simp [List.getLast?_cons]

theorem getFileLines_lossless {content rest : List UInt8} {position : Nat}
    (here : content.drop position = rest) {fuel : Nat} (enough : rest.length < fuel) :
    ∃ delivered last, getFileLines fuel ⟨content, position⟩ = some (delivered, last) ∧
      Lossless rest delivered last := by
  induction fuel generalizing rest position with
  | zero => cases enough
  | succ fuel ih =>
      by_cases found : 10 ∈ rest
      · obtain ⟨line, more, rfl, single⟩ := List.eq_append_cons_of_mem found
        have next : content.drop (position + line.length + 1) = more := by
          rw [← List.drop_drop, drop_length here]
          rfl
        have shorter : more.length < fuel := by
          simp at enough
          omega
        obtain ⟨delivered, last, ran, lossless⟩ := ih next shorter
        refine ⟨_, last, ?_, lossless.cons single⟩
        simp [getFileLines, getFileLineMalloc_newline here single, ran]
      · by_cases nonempty : rest = []
        · subst nonempty
          refine ⟨[], -2, ?_, ⟨rfl, by simp, by simp, Or.inr rfl, by simp⟩⟩
          simp [getFileLines, getFileLineMalloc_end here]
        · refine ⟨[(-1, rest)], -1, ?_, ⟨by simp, by simpa using found, by simp, Or.inl rfl, ?_⟩⟩
          · simp [getFileLines, getFileLineMalloc_last here found nonempty]
          · refine ⟨fun _ => ⟨nonempty, ?_⟩, fun _ => rfl⟩
            intro ends
            exact found (List.mem_of_getLast? ends)

/-- `sString` after `fgets`: what was read, its terminator and the rest of the buffer. -/
def fgetsBuffer (sString piece : List UInt8) : List UInt8 :=
  piece ++ 0 :: sString.drop (piece.length + 1)

/-- The loop of `GetFileRowCount` over what `fgets` reads. -/
def countRows : List (List UInt8) → List UInt8 → Nat → Nat
  | [], _, iNum => iNum
  | piece :: rest, sString, iNum =>
      let sString := fgetsBuffer sString piece
      let iLengStr := (text sString).length
      countRows rest sString (if sString[iLengStr]? = some 10 then iNum + 1 else iNum)

/-- The value stored and returned for a file that can be opened. -/
def getFileRowCount (content : List UInt8) : Nat :=
  countRows (pieces 10 1023 content) (List.replicate 1024 0) 0

/-- The byte at the end of a text is its terminator. -/
theorem getElem?_length_text {bytes : List UInt8} (terminated : 0 ∈ bytes) :
    bytes[(text bytes).length]? = some 0 := by
  induction bytes with
  | nil => cases terminated
  | cons byte bytes ih =>
      by_cases zero : byte = 0
      · simp [text, zero]
      · have later := ih ((List.mem_cons.mp terminated).resolve_left (Ne.symm zero))
        rw [text] at later ⊢
        rw [List.takeWhile_cons_of_pos (by simpa using zero)]
        simpa using later

theorem countRows_eq (read : List (List UInt8)) (sString : List UInt8) (iNum : Nat) :
    countRows read sString iNum = iNum := by
  induction read generalizing sString with
  | nil => rfl
  | cons piece rest ih =>
      have terminated : 0 ∈ fgetsBuffer sString piece := by simp [fgetsBuffer]
      rw [countRows, getElem?_length_text terminated]
      exact ih _

/-- The count is right exactly for files without a newline. -/
theorem getFileRowCount_iff (content : List UInt8) :
    getFileRowCount content = content.count 10 ↔ 10 ∉ content := by
  rw [getFileRowCount, countRows_eq, ← List.count_eq_zero]
  exact eq_comm

/-- A file of one line. -/
theorem getFileRowCount_line : getFileRowCount [97, 10] ≠ [97, 10].count 10 := by
  rw [getFileRowCount, countRows_eq]
  decide

end FrameCode.LibFile
