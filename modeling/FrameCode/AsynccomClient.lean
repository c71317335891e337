import FrameCode.LabelledRuns
import Mathlib.Data.List.Nodup

/-!
# The lines of `asynccom-client.c`

The clients of a server share a lock file with the pid of the server and one slot for
each line.  A client takes the first free slot when it starts (`WriteLockFile`) and gives
it back when it exits (`Exit`).  When no slot is free the search of `WriteLockFile` ends
with `i = LINEMAX`, but only `i > LINEMAX` is refused.

Every access to the array `lockdata` of 33 entries is checked here: `none` stands for an
index out of bounds.
-/

namespace FrameCode.AsynccomClient

/-- `LINEMAX`. -/
def lineMax : Nat := 32

/-- The array `lockdata` after the file has been read into it. -/
def readLockdata (file : List Nat) : List Nat :=
  (file ++ List.replicate (lineMax + 1) 0).take (lineMax + 1)

/-- The file after the array has been written to its beginning. -/
def writeLockdata (lockdata file : List Nat) : List Nat :=
  lockdata ++ file.drop (lineMax + 1)

/-- The loop of `WriteLockFile` from line `i` on, with `rounds` lines to go: the line at
which it ends, and the array. -/
def takeSlot (pid : Nat) : Nat → Nat → List Nat → Option (Nat × List Nat)
  | 0, i, lockdata => some (i, lockdata)
  | rounds + 1, i, lockdata => do
      let entry ← lockdata[i + 1]?
      if entry = 0 then some (i, lockdata.set (i + 1) pid)
      else takeSlot pid rounds (i + 1) lockdata

/-- `WriteLockFile`: the value returned, the line and the file afterwards. -/
def writeLockFile (pid : Nat) (line : Int) (file : List Nat) : Option (Int × Int × List Nat) := do
  let lockdata := readLockdata file
  let server ← lockdata[0]?
  if server = 0 then some (-1, line, file)
  else
    let (i, lockdata) ← takeSlot pid lineMax 0 lockdata
    if i > lineMax then some (-1, line, file)
    else some (0, (i : Int), writeLockdata lockdata file)

/-- An entry of an array at an index of type `int`. -/
def entryAt (lockdata : List Nat) (index : Int) : Option Nat :=
  if 0 ≤ index then lockdata[index.toNat]? else none

/-- `Exit`: the file afterwards. -/
def exit (pid : Nat) (line : Int) (file : List Nat) : Option (List Nat) := do
  let lockdata := readLockdata file
  let server ← lockdata[0]?
  if server = 0 then some file
  else
    let entry ← entryAt lockdata (line + 1)
    if entry = pid then some (writeLockdata (lockdata.set (line + 1).toNat 0) file)
    else some file

/-- A client that has started and has not exited, with what `WriteLockFile` returned. -/
structure Client where
  pid : Nat
  line : Int
  returned : Int
  deriving DecidableEq

structure System where
  file : List Nat
  clients : List Client
  outOfBounds : Bool
  deriving DecidableEq

/-- The lock file as the server writes it. -/
def start (server : Nat) : System where
  file := server :: List.replicate lineMax 0
  clients := []
  outOfBounds := false

inductive Action
  | start (pid : Nat)
  | exit (pid : Nat)
  deriving DecidableEq

/-- A start or an exit as one step.  No other process has the pid of a running one. -/
def step (s : System) : Action → Option System
  | .start pid =>
      if pid = 0 ∨ s.file[0]? = some pid ∨ pid ∈ s.clients.map Client.pid then none
      else
        match writeLockFile pid (-1) s.file with
        | some (returned, line, file) =>
            some { s with file := file, clients := s.clients ++ [⟨pid, line, returned⟩] }
        | none => some { s with outOfBounds := true }
  | .exit pid =>
      match s.clients.find? fun client => client.pid = pid with
      | none => none
      | some client =>
          let others := s.clients.filter fun other => other.pid ≠ pid
          match exit client.pid client.line s.file with
          | some file => some { s with file := file, clients := others }
          | none => some { s with clients := others, outOfBounds := true }

/-- What the allocation of lines promises of a state. -/
structure Allocated (s : System) : Prop where
  owns : ∀ client ∈ s.clients, client.returned = 0 →
    ∃ k < lineMax, client.line = k ∧ s.file[k + 1]? = some client.pid
  distinct : ∀ client ∈ s.clients, ∀ other ∈ s.clients, client.returned = 0 →
    other.returned = 0 → client.line = other.line → client = other
  inBounds : s.outOfBounds = false

/-- A start finds one of the slots free. -/
def FreeSlot (s : System) : Action → Prop
  | .start _ => ∃ k < lineMax, s.file[k + 1]? = some 0
  | .exit _ => True

instance (s : System) : ∀ action, Decidable (FreeSlot s action)
  | .start _ => inferInstanceAs (Decidable (∃ k < lineMax, s.file[k + 1]? = some 0))
  | .exit _ => isTrue trivial

/-- A start that finds no slot free is refused, and the file stays as it is. -/
def RefusesFull (s : System) : Action → Prop
  | .start pid => (∀ k < lineMax, s.file[k + 1]? ≠ some 0) →
      writeLockFile pid (-1) s.file = some (-1, -1, s.file)
  | .exit _ => True

/-! ## One start and one exit -/

section Calls

variable {pid server : Nat} {file : List Nat}

theorem readLockdata_eq (size : file.length = lineMax + 1) : readLockdata file = file := by
  rw [readLockdata, ← size, List.take_left]

theorem writeLockdata_eq (size : file.length = lineMax + 1) (lockdata : List Nat) :
    writeLockdata lockdata file = lockdata := by
  rw [writeLockdata, ← size, List.drop_length, List.append_nil]

variable (pid) in
/-- The search takes the first free slot, or ends past the last one. -/
theorem takeSlot_cases {rounds i : Nat} (size : file.length = lineMax + 1)
    (remaining : i + rounds = lineMax) :
    (∃ k < lineMax, file[k + 1]? = some 0 ∧
      takeSlot pid rounds i file = some (k, file.set (k + 1) pid)) ∨
    (∀ k < lineMax, i ≤ k → file[k + 1]? ≠ some 0) ∧
      takeSlot pid rounds i file = some (lineMax, file) := by
  induction rounds generalizing i with
  | zero =>
      refine Or.inr ⟨fun k bound from_ => ?_, ?_⟩
      · omega
      · rw [← remaining]
        rfl
  | succ rounds ih =>
      have inside : i + 1 < file.length := by omega
      by_cases free : file[i + 1] = 0
      · refine Or.inl ⟨i, by omega, ?_, ?_⟩
        · rw [List.getElem?_eq_getElem inside, free]
        · simp [takeSlot, List.getElem?_eq_getElem inside, free]
      · have next : takeSlot pid (rounds + 1) i file = takeSlot pid rounds (i + 1) file := by
          simp [takeSlot, List.getElem?_eq_getElem inside, free]
        rw [next]
        rcases ih (i := i + 1) (by omega) with found | ⟨taken, ends⟩
        · exact Or.inl found
        · refine Or.inr ⟨fun k bound from_ => ?_, ends⟩
          by_cases here : k = i
          · rw [here, List.getElem?_eq_getElem inside]
            simpa using free
          · exact taken k bound (by omega)

theorem writeLockFile_eq (size : file.length = lineMax + 1) (head : file[0]? = some server)
    (running : server ≠ 0) {i : Nat} {lockdata : List Nat}
    (ends : takeSlot pid lineMax 0 file = some (i, lockdata)) (bound : i ≤ lineMax) :
    writeLockFile pid (-1) file = some (0, (i : Int), lockdata) := by
  simp [writeLockFile, readLockdata_eq size, head, running, ends, writeLockdata_eq size,
    Nat.not_lt_of_le bound]

variable (pid) in
/-- A start on a file with a free slot. -/
theorem writeLockFile_free (size : file.length = lineMax + 1) (head : file[0]? = some server)
    (running : server ≠ 0) (free : ∃ k < lineMax, file[k + 1]? = some 0) :
    ∃ k < lineMax, file[k + 1]? = some 0 ∧
      writeLockFile pid (-1) file = some (0, (k : Int), file.set (k + 1) pid) := by
  rcases takeSlot_cases pid (i := 0) size (Nat.zero_add _) with found | ⟨taken, -⟩
  · obtain ⟨k, bound, zero, ends⟩ := found
    exact ⟨k, bound, zero, writeLockFile_eq size head running ends (Nat.le_of_lt bound)⟩
  · obtain ⟨k, bound, zero⟩ := free
    exact absurd zero (taken k bound (Nat.zero_le k))

/-- A start on a full file is not refused: it gets the line past the last one. -/
theorem writeLockFile_full (size : file.length = lineMax + 1) (head : file[0]? = some server)
    (running : server ≠ 0) (full : ∀ k < lineMax, file[k + 1]? ≠ some 0) :
    writeLockFile pid (-1) file = some (0, (lineMax : Int), file) := by
  rcases takeSlot_cases pid (i := 0) size (Nat.zero_add _) with found | ⟨-, ends⟩
  · obtain ⟨k, bound, zero, -⟩ := found
    exact absurd zero (full k bound)
  · exact writeLockFile_eq size head running ends (Nat.le_refl _)

/-- A client gives its slot back. -/
theorem exit_own (size : file.length = lineMax + 1) (head : file[0]? = some server)
    (running : server ≠ 0) {k : Nat} (own : file[k + 1]? = some pid) :
    exit pid k file = some (file.set (k + 1) 0) := by
  have index : ((k : Int) + 1).toNat = k + 1 := by omega
  have nonnegative : (0 : Int) ≤ k + 1 := by omega
  simp [exit, entryAt, readLockdata_eq size, head, running, index, nonnegative, own,
    writeLockdata_eq size]

end Calls

/-! ## All clients -/

/-- Every client has its slot, and no two clients have the same pid. -/
structure Inv (server : Nat) (s : System) : Prop where
  size : s.file.length = lineMax + 1
  head : s.file[0]? = some server
  pids : (s.clients.map Client.pid).Nodup
  owns : ∀ client ∈ s.clients, client.pid ≠ 0 ∧ client.returned = 0 ∧
    ∃ k < lineMax, client.line = k ∧ s.file[k + 1]? = some client.pid
  inBounds : s.outOfBounds = false

variable {server : Nat} {s t : System}

theorem inv_start (server : Nat) : Inv server (start server) where
  size := rfl
  head := rfl
  pids := List.nodup_nil
  owns := nofun
  inBounds := rfl

theorem Inv.allocated (inv : Inv server s) : Allocated s where
  owns client inside _ := (inv.owns client inside).2.2
  distinct client inside other insideOther _ _ same := by
    obtain ⟨-, -, k, -, line, slot⟩ := inv.owns client inside
    obtain ⟨-, -, j, -, otherLine, otherSlot⟩ := inv.owns other insideOther
    have places : k = j := by omega
    rw [places, otherSlot] at slot
    exact List.inj_on_of_nodup_map inv.pids inside insideOther (Option.some.inj slot).symm
  inBounds := inv.inBounds

theorem Inv.start (inv : Inv server s) {pid k : Nat} (positive : pid ≠ 0)
    (new : pid ∉ s.clients.map Client.pid) (bound : k < lineMax)
    (free : s.file[k + 1]? = some 0) :
    Inv server { s with
      file := s.file.set (k + 1) pid
      clients := s.clients ++ [⟨pid, k, 0⟩] } where
  size := by simpa using inv.size
  head := by simpa using inv.head
  pids := by
    rw [List.map_append]
    exact List.nodup_append.mpr ⟨inv.pids, List.nodup_singleton pid, by
      intro a inside b single
      rw [List.mem_singleton.mp single]
      rintro rfl
      exact new inside⟩
  owns client inside := by
    rcases List.mem_append.mp inside with inside | added
    · obtain ⟨nonzero, returned, j, below, line, slot⟩ := inv.owns client inside
      refine ⟨nonzero, returned, j, below, line, ?_⟩
      have other : k + 1 ≠ j + 1 := by
        intro same
        rw [same, slot] at free
        exact nonzero (Option.some.inj free)
      rw [List.getElem?_set_ne other]
      exact slot
    · rw [List.mem_singleton.mp added]
      refine ⟨positive, rfl, k, bound, rfl, ?_⟩
      have inside : k + 1 < s.file.length := by rw [inv.size]; omega
      rw [List.getElem?_set_self inside]
  inBounds := inv.inBounds

theorem Inv.exit (inv : Inv server s) {client : Client} {k : Nat}
    (own : s.file[k + 1]? = some client.pid) :
    Inv server { s with
      file := s.file.set (k + 1) 0
      clients := s.clients.filter fun other => other.pid ≠ client.pid } where
  size := by simpa using inv.size
  head := by simpa using inv.head
  pids := inv.pids.sublist (List.filter_sublist.map _)
  owns other member := by
    obtain ⟨kept, different⟩ := List.mem_filter.mp member
    obtain ⟨nonzero, returned, j, below, line, slot⟩ := inv.owns other kept
    refine ⟨nonzero, returned, j, below, line, ?_⟩
    have elsewhere : k + 1 ≠ j + 1 := by
      intro same
      rw [same, slot] at own
      simp [Option.some.inj own] at different
    rw [List.getElem?_set_ne elsewhere]
    exact slot
  inBounds := inv.inBounds

/-- A start and an exit keep the invariant, as long as the start finds a slot. -/
theorem Inv.step (running : server ≠ 0) : Preserved step FreeSlot (Inv server) := by
  intro s action t inv free taken
  cases action with
  | start pid =>
      simp only [AsynccomClient.step] at taken
      split at taken
      · cases taken
      · rename_i fresh
        push Not at fresh
        obtain ⟨k, bound, zero, written⟩ :=
          writeLockFile_free pid inv.size inv.head running free
        rw [written] at taken
        cases taken
        exact inv.start fresh.1 fresh.2.2 bound zero
  | exit pid =>
      simp only [AsynccomClient.step] at taken
      split at taken
      · cases taken
      · rename_i client found
        have inside := List.mem_of_find?_eq_some found
        have same : client.pid = pid := by simpa using List.find?_some found
        subst same
        obtain ⟨-, -, k, -, line, slot⟩ := inv.owns client inside
        rw [line, exit_own inv.size inv.head running slot] at taken
        cases taken
        exact inv.exit slot

/-- A start on a full file leaves a client without a line. -/
theorem Inv.freeSlot_of_allocated (running : server ≠ 0) (inv : Inv server s) {action : Action}
    (taken : AsynccomClient.step s action = some t) (allocated : Allocated t) :
    FreeSlot s action := by
  cases action with
  | exit pid => trivial
  | start pid =>
      by_contra full
      simp only [FreeSlot, not_exists, not_and] at full
      simp only [AsynccomClient.step] at taken
      split at taken
      · cases taken
      · rw [writeLockFile_full inv.size inv.head running full] at taken
        cases taken
        obtain ⟨k, bound, line, -⟩ := allocated.owns ⟨pid, lineMax, 0⟩ (by simp) rfl
        simp only at line
        omega

/-- In every history of starts and exits, the lines are allocated as promised throughout,
and every start on a full file is refused, exactly when every start finds a free slot. -/
theorem lines_allocated_iff {server : Nat} (running : server ≠ 0) (actions : List Action) :
    Throughout step Allocated (start server) actions ∧
        Meets step RefusesFull (start server) actions ↔
      Meets step FreeSlot (start server) actions := by
  have exact_ := (Inv.step running).throughout_iff_meets (fun _ inv => inv.allocated)
    (fun _ _ _ inv => inv.freeSlot_of_allocated running) (inv_start server) actions
  constructor
  · rintro ⟨throughout, -⟩
    exact exact_.mp throughout
  · intro meets
    refine ⟨exact_.mpr meets, meets.mono fun s action free => ?_⟩
    cases action with
    | exit pid => trivial
    | start pid =>
        intro full
        obtain ⟨k, bound, zero⟩ := free
        exact absurd zero (full k bound)

/-- Three clients, the third on the line of the first. -/
theorem lines_allocated_reused :
    run step (start 100) [.start 101, .start 102, .exit 101, .start 103] =
        some ⟨100 :: 103 :: 102 :: List.replicate 30 0, [⟨102, 1, 0⟩, ⟨103, 0, 0⟩], false⟩ ∧
      Throughout step Allocated (start 100) [.start 101, .start 102, .exit 101, .start 103] :=
  ⟨by decide, ((lines_allocated_iff (by decide) _).mpr (by decide)).1⟩

/-- As many starts as there are lines, and one more. -/
def crowd : List Action := (List.range (lineMax + 1)).map fun i => .start (101 + i)

/-- The client that starts on a full file is told that it has a line. -/
theorem not_lines_allocated :
    ¬ ∀ server : Nat, server ≠ 0 → ∀ actions,
      Throughout step Allocated (start server) actions ∧
        Meets step RefusesFull (start server) actions := by
  intro all
  obtain ⟨throughout, -⟩ := all 100 (by decide) crowd
  have reached : ∃ t, run step (start 100) crowd = some t ∧ ⟨133, 32, 0⟩ ∈ t.clients :=
    ⟨(run step (start 100) crowd).getD (start 100), rfl, by decide⟩
  obtain ⟨t, reached, last⟩ := reached
  obtain ⟨k, bound, line, -⟩ := (throughout.last reached).owns ⟨133, 32, 0⟩ last rfl
  simp only [lineMax] at line bound
  omega

end FrameCode.AsynccomClient
