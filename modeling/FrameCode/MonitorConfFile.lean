import FrameCode.LibString
import FrameCode.LineReading

/-!
# The configuration of the child process monitor

`Insert_ChildProcessInfo_List` reads a file of sections.  The node of a section is filled line
by line and put into the list when the next section, or the end of the file, is seen.

The local buffers of 4097 bytes hold every line of the files that are considered.  A run
without a result uses a null pointer or writes behind a field of the node.
-/

namespace FrameCode.MonitorConfFile

open CText LibString LineReading

/-! ## The loading of the list -/

/-- The fields of `ST_ChildProcess` that are filled from the file. -/
structure ProcessInfo where
  iPocessStatus : Int := 0
  sProcessLabel : List UInt8
  sBinPathName : List UInt8
deriving DecidableEq

/-- The variables of `Insert_ChildProcessInfo_List` that live from line to line. -/
structure Loading where
  list : List ProcessInfo
  pPointStChildProcess : Option ProcessInfo
  iProcessnum : Int
deriving DecidableEq

/-- `strcpy` into a field of `size` bytes. -/
def strcpy (size : Nat) (source : List UInt8) : Option (List UInt8) :=
  if source.length < size then some source else none

/-- `While_ReadLine_FromFile` until it returns `NULL`: `fgets` into 40961 bytes. -/
def whileReadLineFromFile (file : List UInt8) : List (List UInt8) := pieces 10 40960 file

/-- `Wile_ReadLine_FromConfFile` until it returns `NULL`, on what is read from the file. -/
def wileReadLineFromConfFile (read : List (List UInt8)) : List (List UInt8) :=
  (read.map fun piece => trim (text piece)).filter fun line =>
    !strncmpEqual line (literal "#") 1 && line != literal "\n"

/-- `InsertNode_To_List` for the node itself and then for its copies. -/
def insertNodes (node : ProcessInfo) : Nat → List ProcessInfo → List ProcessInfo
  | 0, list => list
  | count + 1, list => insertNodes node count (list ++ [node])

namespace Loading

variable (s : Loading)

/-- The loop over `iFor`; the pointer is used only if the loop turns. -/
def insertLoop : Option (List ProcessInfo) :=
  if s.iProcessnum ≤ 0 then some s.list
  else s.pPointStChildProcess.map fun node => insertNodes node s.iProcessnum.toNat s.list

/-- A line with a key and a value.  The length of the comparison is that of the key. -/
def keyValueLine (sStrKey sStrValue : List UInt8) : Option Loading :=
  if strncmpEqual sStrKey (literal "PROCESSNUM") sStrKey.length then
    some { s with iProcessnum := atoi sStrValue }
  else if strncmpEqual sStrKey (literal "BINPATHNAME") sStrKey.length then do
    let node ← s.pPointStChildProcess
    let copied ← strcpy (256 + 1) sStrValue
    some { s with pPointStChildProcess := some { node with sBinPathName := copied } }
  else some s

/-- A line with brackets. -/
def bracketLine (sStrBetweenZkh : List UInt8) : Option Loading := do
  let list ← s.insertLoop
  let sProcessLabel ← strcpy (256 + 1) sStrBetweenZkh
  some ⟨list, some { sProcessLabel := sProcessLabel, sBinPathName := [] }, 0⟩

/-- A turn of the loop for a line that has been read. -/
def readLine (sStrLine : List UInt8) : Option Loading :=
  match getStringBetweenZkh sStrLine with
  | none =>
      match getKeyValueDhQdKg sStrLine with
      | some (sStrKey, sStrValue) => s.keyValueLine sStrKey sStrValue
      | none => some s
  | some sStrBetweenZkh => s.bracketLine sStrBetweenZkh

/-- The last turn. -/
def finish : Option (List ProcessInfo) :=
  match s.pPointStChildProcess with
  | none => some s.list
  | some _ => s.insertLoop

end Loading

/-- The list when `read` has been read from the file and the end is seen. -/
def insertLines (read : List (List UInt8)) (list : List ProcessInfo) : Option (List ProcessInfo) :=
  ((wileReadLineFromConfFile read).foldlM Loading.readLine ⟨list, none, 0⟩).bind Loading.finish

/-- `Insert_ChildProcessInfo_List`: the list that is left behind. -/
def insertChildProcessInfoList (file : List UInt8) (list : List ProcessInfo) :
    Option (List ProcessInfo) :=
  insertLines (whileReadLineFromFile file) list

/-! ## What the file says -/

/-- A line of a file: its bytes without the line end, and whether there is one. -/
structure Line where
  content : List UInt8
  ended : Bool
deriving DecidableEq

def Line.bytes (line : Line) : List UInt8 := line.content ++ if line.ended then [10] else []

/-- The lines of a file.  The last one has no line end. -/
def fileLines (file : List UInt8) : List Line :=
  (splitLines 10 file).1.map (fun content => ⟨content, true⟩) ++
    if (splitLines 10 file).2 = [] then [] else [⟨(splitLines 10 file).2, false⟩]

/-- A line with a key and a value: what stands behind the `=` up to the line end. -/
structure Setting where
  key : List UInt8
  behind : List UInt8
  ended : Bool
deriving DecidableEq

/-- The value without spaces around it. -/
def Setting.value (setting : Setting) : List UInt8 := trim setting.behind

/-- What is copied, with the line end. -/
def Setting.copied (setting : Setting) : List UInt8 :=
  trim (setting.behind ++ if setting.ended then [10] else [])

inductive Entry
  | heading (name : List UInt8)
  | setting (setting : Setting)
  | other
deriving DecidableEq

/-- The first byte that is not a space is `#`. -/
def Line.IsComment (line : Line) : Prop := (trimBefore line.content).head? = some 35

instance (line : Line) : Decidable line.IsComment := by
  unfold Line.IsComment
  infer_instance

/-- What a line is: brackets make a section line, and an `=` a key line. -/
def Line.entry (line : Line) : Entry :=
  if line.IsComment then .other
  else
    match getStringBetweenZkh line.content with
    | some name => .heading name
    | none =>
        match getStringBeforeDhQdKg line.content, getStringBehindChar line.content 61 with
        | some key, some behind => .setting ⟨key, behind, line.ended⟩
        | _, _ => .other

/-- A section line and the key lines up to the next section line. -/
structure Section where
  name : List UInt8
  settings : List Setting
deriving DecidableEq

def Section.add (s : Section) (setting : Setting) : Section := ⟨s.name, s.settings ++ [setting]⟩

/-- The sections from within a section on. -/
def sectionsFrom (current : Section) : List Entry → List Section
  | [] => [current]
  | .heading name :: entries => current :: sectionsFrom ⟨name, []⟩ entries
  | .setting setting :: entries => sectionsFrom (current.add setting) entries
  | .other :: entries => sectionsFrom current entries

def sections : List Entry → List Section
  | [] => []
  | .heading name :: entries => sectionsFrom ⟨name, []⟩ entries
  | _ :: entries => sections entries

namespace Section

variable (s : Section)

/-- The last setting with such a key. -/
def last (accepts : List UInt8 → Bool) : Option Setting :=
  s.settings.reverse.find? fun setting => accepts setting.key

/-- The number under `PROCESSNUM`. -/
def processnum : Int :=
  (s.last (· == literal "PROCESSNUM")).elim 0 fun setting => atoi setting.value

/-- The value under `BINPATHNAME`. -/
def binpathname : List UInt8 := (s.last (· == literal "BINPATHNAME")).elim [] Setting.value

/-- The nodes that the section asks for. -/
def nodes : List ProcessInfo :=
  List.replicate s.processnum.toNat
    { sProcessLabel := s.name, sBinPathName := s.binpathname }

end Section

/-- The nodes that the lines ask for, section by section. -/
def configured (lines : List Line) : List ProcessInfo :=
  (sections (lines.map Line.entry)).flatMap Section.nodes

/-- The whole file gives the configured nodes, and so do the lines before any of its section
lines: each section has its own nodes put into the list. -/
structure LoadsBySection (file : List UInt8) (list : List ProcessInfo) : Prop where
  whole : insertChildProcessInfoList file list = some (list ++ configured (fileLines file))
  bySection : ∀ before after, fileLines file = before ++ after →
    (∀ next ∈ after.head?, ∃ name, next.entry = .heading name) →
      insertLines (before.map Line.bytes) list = some (list ++ configured before)

/-- A text file whose lines are shorter than 4096 bytes and whose key lines all follow a
section line. -/
structure ConfFile (file : List UInt8) : Prop where
  clean : 0 ∉ file
  short : ∀ line ∈ fileLines file, line.content.length < 4096
  placed : ∀ before line after setting, fileLines file = before ++ line :: after →
    line.entry = .setting setting → ∃ heading ∈ before, ∃ name, heading.entry = .heading name

end FrameCode.MonitorConfFile
