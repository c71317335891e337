import FrameCode.LibFile

/-!
# The indentation pipelines

The modes `e` and `f` apply one pass after the other through temporary files.  The name of a
temporary file depends on its input file only, and two of the passes read the same one: the
second of them writes over the file of the first.  That file is removed twice, or removed and
then renamed, and the call fails.
-/

namespace FrameCode.LibFile

variable {lineMax : Nat} {before : Nat → UInt8} {files after : Files}
variable {inFile outFile name : List UInt8} {flag : Flag}

/-! ## What the pipelines are for -/

/-- The passes of a pipeline. -/
def Flag.passes : Flag → List Flag
  | .fourKgDqbq =>
      [.lineHeadAllTabToFourKg, .deleteLineLeftRightKg, .windowsHhToUnixHh, .noSjAddFourKgDqbq]
  | .tabDqbq =>
      [.lineHeadAllTabToFourKg, .deleteLineLeftRightKg, .windowsHhToUnixHh, .noSjAddFourKgDqbq,
        .lineHeadAllFourKgToTab]
  | flag => [flag]

/-- The passes applied one after the other. -/
def composed (lineMax : Nat) (before : Nat → UInt8) : List Flag → List UInt8 → Option (List UInt8)
  | [], content => some content
  | flag :: rest, content => (process lineMax before flag content).bind (composed lineMax before rest)

/-- The call does not fail, it leaves the composed result in the output file, and no other file
has changed. -/
def Composes (lineMax : Nat) (before : Nat → UInt8) (files : Files) (inFile outFile : List UInt8)
    (flag : Flag) : Prop :=
  ∃ outcome content, doFile lineMax before files inFile outFile flag = some outcome ∧
    outcome.failed = false ∧ files inFile = some content ∧
    outcome.files outcome.outFile = composed lineMax before flag.passes content ∧
    ∀ other, other ≠ outcome.outFile → outcome.files other = files other

/-! ## Temporary files -/

/-- A call on a file writes its output file. -/
theorem openAndProcess_eq_some
    (opened : openAndProcess lineMax before files inFile outFile flag = some (after, name)) :
    name = (if outFile = [] then inFile ++ outtmp else outFile) ∧
      ∃ output, after = Function.update files name (some output) := by
  simp only [openAndProcess] at opened
  generalize (if outFile = [] then inFile ++ outtmp else outFile) = chosen at opened ⊢
  split at opened
  · cases opened
  · obtain ⟨output, -, same⟩ := Option.map_eq_some_iff.mp opened
    obtain ⟨rfl, rfl⟩ := Prod.mk.inj same
    exact ⟨rfl, output, Function.update_idem ..⟩

theorem ne_append_outtmp (name : List UInt8) : name ≠ name ++ outtmp := by
  intro same
  have lengths := congrArg List.length same
  simp [outtmp] at lengths

theorem remove_of_some {content : List UInt8} (found : files name = some content) :
    remove name files = .ok (Function.update files name none) := by
  rw [remove, found]

theorem remove_update_none (name : List UInt8) (files : Files) :
    remove name (Function.update files name none) = .error (Function.update files name none) := by
  rw [remove, Function.update_self]

theorem rename_update_none (name new : List UInt8) (files : Files) :
    rename name new (Function.update files name none) =
      .error (Function.update files name none) := by
  rw [rename, Function.update_self]

/-- The temporary files of both modes: the last two passes have written the same one. -/
theorem temporary_files {files1 files2 files3 : Files} {out file1 file2 file3 : List UInt8}
    (first : openAndProcess lineMax before files out [] .deleteLineLeftRightKg =
      some (files1, file1))
    (second : openAndProcess lineMax before files1 file1 [] .windowsHhToUnixHh =
      some (files2, file2))
    (third : openAndProcess lineMax before files2 file1 [] .noSjAddFourKgDqbq =
      some (files3, file3)) :
    file2 = file1 ++ outtmp ∧ file3 = file2 ∧ (∃ content, files3 file1 = some content) ∧
      ∃ content, files3 file2 = some content := by
  obtain ⟨-, output1, rfl⟩ := openAndProcess_eq_some first
  obtain ⟨name2, output2, rfl⟩ := openAndProcess_eq_some second
  obtain ⟨name3, output3, rfl⟩ := openAndProcess_eq_some third
  rw [if_pos rfl] at name2 name3
  have different := ne_append_outtmp file1
  refine ⟨name2, name3.trans name2.symm, ⟨output1, ?_⟩, ⟨output3, ?_⟩⟩
  · rw [Function.update_of_ne (name3 ▸ different), Function.update_of_ne (name2 ▸ different),
      Function.update_self]
  · rw [name2, ← name3, Function.update_self]

/-- Removing the temporary files one after the other fails at the file that two passes have
written. -/
theorem remove_twice {file1 file2 : List UInt8} (different : file1 ≠ file2)
    (first : ∃ content, files file1 = some content) (second : ∃ content, files file2 = some content) :
    ∃ rest, (remove file1 files >>= remove file2) = .ok (Function.update rest file2 none) := by
  obtain ⟨content1, found1⟩ := first
  obtain ⟨content2, found2⟩ := second
  have kept : Function.update files file1 none file2 = some content2 := by
    rw [Function.update_of_ne different.symm, found2]
  refine ⟨Function.update files file1 none, ?_⟩
  rw [remove_of_some found1]
  exact remove_of_some kept

/-! ## Both modes fail -/

theorem fourKgDqbq_failed {outcome : Outcome}
    (done : doFile lineMax before files inFile outFile .fourKgDqbq = some outcome) :
    outcome.failed = true := by
  simp only [doFile, Option.bind_eq_bind, Option.bind_eq_some_iff] at done
  obtain ⟨⟨files0, out⟩, -, ⟨files1, file1⟩, opened1, ⟨files2, file2⟩, opened2,
    ⟨files3, file3⟩, opened3, ended⟩ := done
  obtain ⟨name2, name3, found1, found2⟩ := temporary_files opened1 opened2 opened3
  obtain ⟨rest, removed⟩ := remove_twice (name2 ▸ ne_append_outtmp file1) found1 found2
  have fails : (remove file1 files3 >>= remove file2 >>= rename file3 out) =
      .error (Function.update rest file2 none) := by
    rw [removed, name3]
    exact rename_update_none file2 out rest
  simp only [fails, finish] at ended
  cases ended
  rfl

theorem tabDqbq_failed {outcome : Outcome}
    (done : doFile lineMax before files inFile outFile .tabDqbq = some outcome) :
    outcome.failed = true := by
  simp only [doFile, Option.bind_eq_bind, Option.bind_eq_some_iff] at done
  obtain ⟨⟨files0, out⟩, -, ⟨files1, file1⟩, opened1, ⟨files2, file2⟩, opened2,
    ⟨files3, file3⟩, opened3, ⟨files4, file4⟩, opened4, ended⟩ := done
  obtain ⟨name2, name3, found1, found2⟩ := temporary_files opened1 opened2 opened3
  obtain ⟨name4, output4, rfl⟩ := openAndProcess_eq_some opened4
  rw [if_pos rfl] at name4
  have other1 : file1 ≠ file4 := by
    intro same
    have lengths := congrArg List.length same
    simp [name4, name2, outtmp] at lengths
  have other2 : file2 ≠ file4 := name4 ▸ ne_append_outtmp file2
  obtain ⟨rest, removed⟩ := @remove_twice (Function.update files3 file4 (some output4)) file1 file2
    (name2 ▸ ne_append_outtmp file1) (by rwa [Function.update_of_ne other1])
    (by rwa [Function.update_of_ne other2])
  have fails : (remove file1 (Function.update files3 file4 (some output4)) >>= remove file2 >>=
      remove file3 >>= rename file4 out) = .error (Function.update rest file2 none) := by
    rw [removed, name3]
    simp only [bind, Except.bind, remove_update_none]
  simp only [fails, finish] at ended
  cases ended
  rfl

/-- Neither pipeline ever does what it is for, whatever the files and the names are. -/
theorem pipelines_never_compose (lineMax : Nat) (before : Nat → UInt8) (files : Files)
    (inFile outFile : List UInt8) :
    ¬ Composes lineMax before files inFile outFile .fourKgDqbq ∧
      ¬ Composes lineMax before files inFile outFile .tabDqbq := by
  constructor
  · rintro ⟨outcome, content, done, succeeded, -⟩
    simp [fourKgDqbq_failed done] at succeeded
  · rintro ⟨outcome, content, done, succeeded, -⟩
    simp [tabDqbq_failed done] at succeeded

/-- A file `a` with a block of one line. -/
def blockFile : Files := Function.update (fun _ => none) [97] (some [123, 10, 120, 10, 125, 10])

/-- The call on the block returns `-1` and leaves it without indentation. -/
theorem not_pipelines_compose :
    composed 40960 (fun _ => 0) Flag.fourKgDqbq.passes [123, 10, 120, 10, 125, 10] =
      some [123, 10, 32, 32, 32, 32, 120, 10, 125, 10] ∧
    ((doFile 40960 (fun _ => 0) blockFile [97] [98] .fourKgDqbq).map fun outcome =>
      (outcome.failed, outcome.files [98])) = some (true, some [123, 10, 120, 10, 125, 10]) ∧
    ¬ Composes 40960 (fun _ => 0) blockFile [97] [98] .fourKgDqbq := by
  refine ⟨by rfl, by rfl, ?_⟩
  rintro ⟨outcome, content, done, succeeded, -⟩
  simp [fourKgDqbq_failed done] at succeeded

end FrameCode.LibFile
