import FrameCode.CText
import FrameCode.LineReading
import Mathlib.Logic.Function.Basic

/-!
# The file passes of `lib_file.c`

`Do_File` reads a file and writes another one, in one of many modes.  The modes for indentation
call it for other modes on temporary files, whose names it makes up when it is given an empty
one.  Opening a file for writing always succeeds; what has no defined meaning is `none`: an input
file that is missing, since the code closes it anyway, and a write outside of a buffer.
-/

namespace FrameCode.LibFile

open CText LineReading

/-- The modes of `Do_File`, but for those that list functions. -/
inductive Flag
  | ifLineOnlyTab
  | ifLineOnlyKg
  | ifLineOnlyKgAndTab
  | lineHeadAllTabToFourKg
  | lineHeadAllFourKgToTab
  | multipleHhToTwoHh
  | windowsHhToUnixHh
  | unixHhToWindowsHh
  | tabDqbq
  | fourKgDqbq
  | noSjAddFourKgDqbq
  | deleteLineLeftRightKg
  | deleteAllTabEmptyLine
  | deleteAllKgEmptyLine
  | deleteAllHhfhEmptyLine
  | deleteAllTabKgEmptyLine
  | deleteZs
  | moreNotUseVariable
  deriving DecidableEq

/-! ## Lines -/

/-- The modes `t`, `s` and `a`. -/
def emptyLineOf (blank : UInt8 → Bool) (line : List UInt8) : List UInt8 :=
  if line.all blank then [10] else line

/-- The modes `k`, `m`, `n` and `q`. -/
def deleteLineOf (blank : UInt8 → Bool) (line : List UInt8) : List UInt8 :=
  if line.all fun byte => byte == 10 || blank byte then [] else line

/-- The byte `back` places before the terminator of a line; the bytes in front of the line buffer
are whatever stands on the stack. -/
def byteBack (before : Nat → UInt8) (line : List UInt8) (back : Nat) : UInt8 :=
  if back ≤ line.length then line.getD (line.length - back) 0 else before (back - line.length)

/-- Mode `u`; `memcpy` takes a negative length as a very large one. -/
def windowsHhToUnixHh (before : Nat → UInt8) (line : List UInt8) : Option (List UInt8) :=
  if byteBack before line 1 = 10 ∧ byteBack before line 2 = 13 then
    if line.length < 2 then none else some (line.take (line.length - 2) ++ [10])
  else some line

/-- Mode `w`. -/
def unixHhToWindowsHh (before : Nat → UInt8) (line : List UInt8) : Option (List UInt8) :=
  if byteBack before line 1 = 10 ∧ byteBack before line 2 ≠ 13 then
    if line.length < 1 then none else some (line.take (line.length - 1) ++ [13, 10])
  else some line

/-- Mode `b`. -/
def lineHeadAllTabToFourKg : List UInt8 → List UInt8
  | [] => []
  | byte :: rest =>
      if byte ≠ 9 ∧ byte ≠ 32 then byte :: rest
      else (if byte = 9 then [32, 32, 32, 32] else [32]) ++ lineHeadAllTabToFourKg rest

/-- Mode `c`, with the number of bytes of the line as fuel. -/
def lineHeadAllFourKgToTab : Nat → List UInt8 → List UInt8
  | 0, line => line
  | fuel + 1, line =>
      if line.length < 4 then line
      else if line.head? ≠ some 9 ∧ line.take 4 ≠ [32, 32, 32, 32] then line
      else if line.take 4 = [32, 32, 32, 32] then 9 :: lineHeadAllFourKgToTab fuel (line.drop 4)
      else 9 :: lineHeadAllFourKgToTab fuel (line.drop 1)

/-- The counters of mode `z`: the depth of the braces, the number of `switch` lines, and the depth
at which the first of them stands. -/
structure Indent where
  dkh : Int
  switch : Int
  tmp : Int

def Indent.start : Indent := ⟨0, 0, -1⟩

/-- The closing brace of a block, alone on its line. -/
def Indent.leave (indent : Indent) (line : List UInt8) : Indent :=
  if line.take 2 = [125, 10] then
    if indent.tmp = indent.dkh - 1 then ⟨indent.dkh - 1, 0, -1⟩
    else { indent with dkh := indent.dkh - 1 }
  else indent

/-- The opening brace of a block, alone on its line, and a line with `switch`. -/
def Indent.enter (indent : Indent) (line : List UInt8) : Indent :=
  let indent := if line.take 2 = [123, 10] then { indent with dkh := indent.dkh + 1 } else indent
  if [115, 119, 105, 116, 99, 104] <:+: line then
    if indent.switch + 1 = 1 then ⟨indent.dkh, indent.switch + 1, indent.dkh⟩
    else { indent with switch := indent.switch + 1 }
  else indent

/-- The blanks in front of a line; a line with `case` stands at the depth of its `switch`. -/
def Indent.blanks (indent : Indent) (line : List UInt8) : List UInt8 :=
  List.replicate (4 * indent.dkh.toNat) 32 ++
    if 0 < indent.switch ∧ ¬ [99, 97, 115, 101] <:+: line then [32, 32, 32, 32] else []

/-- Mode `z`; the blanks are collected in a buffer of 4096 bytes. -/
def addFourKg (indent : Indent) (line : List UInt8) : Option (Indent × List UInt8) :=
  let indent := indent.leave line
  if 4096 ≤ (indent.blanks line).length then none
  else some (indent.enter line, if line = [10] then line else indent.blanks line ++ line)

/-- What the loop over the lines writes for one of them. -/
def lineOutput (before : Nat → UInt8) (flag : Flag) (indent : Indent) (line : List UInt8) :
    Option (Indent × List UInt8) :=
  match flag with
  | .ifLineOnlyTab => some (indent, emptyLineOf (· == 9) line)
  | .ifLineOnlyKg => some (indent, emptyLineOf (· == 32) line)
  | .ifLineOnlyKgAndTab => some (indent, emptyLineOf (fun byte => byte == 9 || byte == 32) line)
  | .windowsHhToUnixHh => (windowsHhToUnixHh before line).map (indent, ·)
  | .unixHhToWindowsHh => (unixHhToWindowsHh before line).map (indent, ·)
  | .lineHeadAllTabToFourKg => some (indent, lineHeadAllTabToFourKg line)
  | .lineHeadAllFourKgToTab => some (indent, lineHeadAllFourKgToTab line.length line)
  | .noSjAddFourKgDqbq => addFourKg indent line
  | .deleteLineLeftRightKg => some (indent, line)
  | .deleteAllTabEmptyLine => some (indent, deleteLineOf (· == 9) line)
  | .deleteAllKgEmptyLine => some (indent, deleteLineOf (· == 32) line)
  | .deleteAllHhfhEmptyLine => some (indent, deleteLineOf (fun _ => false) line)
  | .deleteAllTabKgEmptyLine =>
      some (indent, deleteLineOf (fun byte => byte == 9 || byte == 32) line)
  | .multipleHhToTwoHh | .tabDqbq | .fourKgDqbq | .deleteZs | .moreNotUseVariable =>
      some (indent, [])

def linesOutput (before : Nat → UInt8) (flag : Flag) :
    Indent → List (List UInt8) → Option (List UInt8)
  | _, [] => some []
  | indent, line :: rest =>
      match lineOutput before flag indent line with
      | none => none
      | some (indent, output) => (linesOutput before flag indent rest).map (output ++ ·)

/-- Mode `d`, byte by byte; the newlines read are written when another byte follows them. -/
def multipleHhToTwoHh : Nat → List UInt8 → List UInt8
  | _, [] => []
  | count, byte :: rest =>
      if byte = 10 then multipleHhToTwoHh (count + 1) rest
      else
        (if count = 1 then [10] else if 2 ≤ count then [10, 10] else []) ++
          byte :: multipleHhToTwoHh 0 rest

/-! ## Files -/

/-- The files by name. -/
abbrev Files := List UInt8 → Option (List UInt8)

/-- What is appended to the name of the input file when the output file has none: `_outtmp`. -/
def outtmp : List UInt8 := [95, 111, 117, 116, 116, 109, 112]

section Passes

variable (lineMax : Nat) (before : Nat → UInt8)

/-- The contents of the output file, for a buffer of `lineMax` bytes for the lines. -/
def process (flag : Flag) (content : List UInt8) : Option (List UInt8) :=
  if flag = .multipleHhToTwoHh then some (multipleHhToTwoHh 0 content)
  else linesOutput before flag .start ((pieces 10 (lineMax - 1) content).map text)

/-- The part of `Do_File` that all modes have: find a name for the output file, open both files
and process the lines.  The output file is emptied before the input file is read. -/
def openAndProcess (files : Files) (inFile outFile : List UInt8) (flag : Flag) :
    Option (Files × List UInt8) :=
  let outFile := if outFile = [] then inFile ++ outtmp else outFile
  match files inFile with
  | none => none
  | some _ =>
      let files := Function.update files outFile (some [])
      ((files inFile).bind (process lineMax before flag)).map fun output =>
        (Function.update files outFile (some output), outFile)

/-- `remove`; the error is the state in which it fails. -/
def remove (name : List UInt8) (files : Files) : Except Files Files :=
  match files name with
  | none => .error files
  | some _ => .ok (Function.update files name none)

/-- `rename`. -/
def rename (old new : List UInt8) (files : Files) : Except Files Files :=
  match files old with
  | none => .error files
  | some content => .ok (Function.update (Function.update files old none) new (some content))

/-- The files after a call of `Do_File`, the name in the buffer of the output file, and whether
the call returned `-1`. -/
structure Outcome where
  files : Files
  outFile : List UInt8
  failed : Bool

/-- The end of the modes `e` and `f`, once the temporary files are removed and renamed: the
common part follows. -/
def finish (inFile outFile : List UInt8) (flag : Flag) : Except Files Files → Option Outcome
  | .error files => some ⟨files, outFile, true⟩
  | .ok files => (openAndProcess lineMax before files inFile outFile flag).map fun result =>
      ⟨result.1, result.2, false⟩

def doFile (files : Files) (inFile outFile : List UInt8) (flag : Flag) : Option Outcome :=
  match flag with
  | .fourKgDqbq => do
      let (files, outFile) ←
        openAndProcess lineMax before files inFile outFile .lineHeadAllTabToFourKg
      let (files, newFile1) ← openAndProcess lineMax before files outFile [] .deleteLineLeftRightKg
      let (files, newFile2) ← openAndProcess lineMax before files newFile1 [] .windowsHhToUnixHh
      let (files, newFile3) ← openAndProcess lineMax before files newFile1 [] .noSjAddFourKgDqbq
      finish lineMax before inFile outFile flag
        (remove newFile1 files >>= remove newFile2 >>= rename newFile3 outFile)
  | .tabDqbq => do
      let (files, outFile) ←
        openAndProcess lineMax before files inFile outFile .lineHeadAllTabToFourKg
      let (files, newFile1) ← openAndProcess lineMax before files outFile [] .deleteLineLeftRightKg
      let (files, newFile2) ← openAndProcess lineMax before files newFile1 [] .windowsHhToUnixHh
      let (files, newFile3) ← openAndProcess lineMax before files newFile1 [] .noSjAddFourKgDqbq
      let (files, newFile4) ←
        openAndProcess lineMax before files newFile2 [] .lineHeadAllFourKgToTab
      finish lineMax before inFile outFile flag
        (remove newFile1 files >>= remove newFile2 >>= remove newFile3 >>= rename newFile4 outFile)
  | _ => (openAndProcess lineMax before files inFile outFile flag).map fun result =>
      ⟨result.1, result.2, false⟩

end Passes

end FrameCode.LibFile
