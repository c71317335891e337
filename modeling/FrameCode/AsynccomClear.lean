import FrameCode.LabelledRuns
import Mathlib.Data.Finset.Basic
import Mathlib.Order.Lattice

/-!
# Clear requests of `asynccom-server.c`

On `SIGUSR1` the server puts the connections of all lines without a client into
`clrfds`, and the next round of the loop in `DoService` is to close them.  The round
closes a connection only when it is also in `rfds`, the set that the last `select` left
behind: all connections when `select` was interrupted, but only the ready ones when it
returned.  A request that arrives while other descriptors are ready is dropped.

The handler shares `acceptfd`, `clrfds` and `clrflag` with the main flow.  A step is a
part of the main flow with one access to these, so that the handler may run between any
two steps; `SIGUSR1` is blocked while the main flow looks at `clrfds`.
-/

namespace FrameCode.AsynccomClear

/-- The descriptors of a line; an `acceptfd` of 0 stands for no connection. -/
structure Line where
  listenfd : Nat
  acceptfd : Nat
  deriving DecidableEq

/-- The connection of a line, by its index. -/
def connection (lines : List Line) (index : Nat) : Nat :=
  (lines[index]?.map Line.acceptfd).getD 0

/-- Where the main flow of `DoService` stands. -/
inductive Pc
  | listening
  | clear
  | copy
  | select
  | scan (fd : Nat)
  deriving DecidableEq

/-- The server.  `opened` holds the open descriptors of the process, and `lastSelect` what
the last `select` reported ready, or `none` if it was interrupted or has not been called. -/
structure Server where
  lines : List Line
  infds : Finset Nat
  rfds : Finset Nat
  clrfds : Finset Nat
  clrflag : Bool
  maxfd : Nat
  opened : Finset Nat
  pc : Pc
  lastSelect : Option (Finset Nat)
  deriving DecidableEq

/-- The server with no line yet; nothing is known of the local variable `rfds`. -/
def start (rfds : Finset Nat) : Server where
  lines := []
  infds := ∅
  rfds := rfds
  clrfds := ∅
  clrflag := false
  maxfd := 0
  opened := {0, 1, 2}
  pc := .listening
  lastSelect := none

/-! ## The clear block -/

/-- The first line with this connection loses it. -/
def clearLine (fd : Nat) : List Line → List Line
  | [] => []
  | line :: lines =>
      if line.listenfd = 0 then line :: lines
      else if fd = line.acceptfd then { line with acceptfd := 0 } :: lines
      else line :: clearLine fd lines

/-- The body of the loop over the descriptors. -/
def clearFd (s : Server) (fd : Nat) : Server :=
  if fd ∈ s.clrfds ∧ fd ∈ s.rfds then
    { s with
      opened := s.opened.erase fd
      infds := s.infds.erase fd
      lines := clearLine fd s.lines }
  else s

/-- What `DoService` does with a pending request. -/
def clearBlock (s : Server) : Server :=
  if s.clrflag then
    { (List.range (s.maxfd + 1)).foldl clearFd s with clrflag := false, clrfds := ∅ }
  else s

/-! ## The other steps -/

/-- `HandleSIGUSR1`: request to clear the lines whose client has no pid in the lock file. -/
def handleSIGUSR1 (lockdata : List Nat) (s : Server) : Server :=
  let requested := (s.lines.zipIdx.filter fun entry =>
    lockdata.getD (entry.2 + 1) 0 = 0 ∧ entry.1.acceptfd ≠ 0).map fun entry => entry.1.acceptfd
  { s with
    clrflag := s.clrflag || !requested.isEmpty
    clrfds := s.clrfds ∪ requested.toFinset }

/-- The first line that a ready descriptor belongs to, and whether it is the line's
listening socket. -/
def dispatch (fd : Nat) : List Line → Option (Nat × Bool)
  | [] => none
  | line :: lines =>
      if line.listenfd = 0 then none
      else if fd = line.listenfd then some (0, true)
      else if fd = line.acceptfd then some (0, false)
      else (dispatch fd lines).map fun found => (found.1 + 1, found.2)

/-- `CreateListenFD` has returned the listening socket of the next line. -/
def addLine (fd : Nat) (s : Server) : Server :=
  { s with
    lines := s.lines ++ [{ listenfd := fd, acceptfd := 0 }]
    infds := insert fd s.infds
    maxfd := max s.maxfd fd
    opened := insert fd s.opened }

/-- A set without the connection that a line had, if it had one. -/
def forget (old : Nat) (fds : Finset Nat) : Finset Nat :=
  if old = 0 then fds else fds.erase old

/-- `HandleListenFD` with a connection from the configured address: it takes the place of
the connection that the line had. -/
def handleListenFD (index acceptfd : Nat) (s : Server) : Server :=
  let old := connection s.lines index
  { s with
    lines := s.lines.modify index fun line => { line with acceptfd := acceptfd }
    infds := insert acceptfd (forget old s.infds)
    maxfd := max s.maxfd acceptfd
    opened := insert acceptfd (forget old s.opened) }

/-- `HandleAcceptFD` when it closes the connection, at the end of the stream or on an error
of `read`, `GetMessageLength` or `HandleTransaction`. -/
def closeConnection (index fd : Nat) (s : Server) : Server :=
  { s with
    lines := s.lines.modify index fun line => { line with acceptfd := 0 }
    infds := s.infds.erase fd
    opened := s.opened.erase fd }

/-- A part of the main flow, or a run of the handler.  Whatever the handlers of a ready
descriptor do that touches neither the sets nor `acceptfd` is a `pass`. -/
inductive Action
  | listen (fd : Nat)
  | serve
  | clear
  | copy
  | selectFails
  | selectReturns (ready : Finset Nat)
  | pass
  | accept (acceptfd : Nat)
  | close
  | scanned
  | sigusr1 (lockdata : List Nat)
  deriving DecidableEq

/-- The line and the kind of the ready descriptor at which the loop stands. -/
def current (s : Server) : Option (Nat × Nat × Bool) :=
  match s.pc with
  | .scan fd =>
      if fd ≤ s.maxfd ∧ fd ∈ s.rfds then (dispatch fd s.lines).map fun found => (fd, found)
      else none
  | _ => none

def step (s : Server) : Action → Option Server
  | .listen fd =>
      if s.pc = .listening ∧ s.lines.length < 32 ∧ fd ∉ s.opened then some (addLine fd s)
      else none
  | .serve => if s.pc = .listening then some { s with pc := .clear } else none
  | .clear => if s.pc = .clear then some { clearBlock s with pc := .copy } else none
  | .copy => if s.pc = .copy then some { s with rfds := s.infds, pc := .select } else none
  | .selectFails =>
      if s.pc = .select then some { s with pc := .clear, lastSelect := none } else none
  | .selectReturns ready =>
      if s.pc = .select ∧ ready ⊆ s.rfds then
        some { s with rfds := ready, pc := .scan 0, lastSelect := some ready }
      else none
  | .pass =>
      match s.pc with
      | .scan fd => if fd ≤ s.maxfd then some { s with pc := .scan (fd + 1) } else none
      | _ => none
  | .accept acceptfd =>
      match current s with
      | some (fd, index, true) =>
          if acceptfd ∉ s.opened then
            some { handleListenFD index acceptfd s with pc := .scan (fd + 1) }
          else none
      | _ => none
  | .close =>
      match current s with
      | some (fd, index, false) => some { closeConnection index fd s with pc := .scan (fd + 1) }
      | _ => none
  | .scanned =>
      match s.pc with
      | .scan fd => if s.maxfd < fd then some { s with pc := .clear } else none
      | _ => none
  | .sigusr1 lockdata => some (handleSIGUSR1 lockdata s)

/-! ## What the clear block does -/

/-- No two lines have the same connection. -/
def Distinct (lines : List Line) : Prop :=
  ∀ i j, connection lines i ≠ 0 → connection lines i = connection lines j → i = j

/-- The line without its connection, if that is one of `fds`. -/
def Line.release (fds : Finset Nat) (line : Line) : Line :=
  if line.acceptfd ∈ fds then { line with acceptfd := 0 } else line

@[simp] theorem Line.release_listenfd (fds : Finset Nat) (line : Line) :
    (line.release fds).listenfd = line.listenfd := by
  unfold Line.release
  split <;> rfl

/-- The connections after some of them are taken from the lines. -/
theorem connection_release {fds : Finset Nat} (zero : 0 ∉ fds) (lines : List Line) (i : Nat) :
    connection (lines.map (Line.release fds)) i =
      if connection lines i ∈ fds then 0 else connection lines i := by
  unfold connection
  rw [List.getElem?_map]
  cases lines[i]? with
  | none => simp [zero]
  | some line =>
      simp only [Option.map_some, Option.getD_some, Line.release]
      split <;> rfl

/-- The connections after a line has been given another one. -/
theorem connection_modify (lines : List Line) (k fd i : Nat) :
    connection (lines.modify k fun line => { line with acceptfd := fd }) i =
      if k = i ∧ k < lines.length then fd else connection lines i := by
  unfold connection
  rw [List.getElem?_modify]
  by_cases here : k = i
  · subst here
    by_cases inside : k < lines.length
    · simp [inside]
    · simp [inside]
  · simp [here]

/-- A new line has no connection. -/
theorem connection_append (lines : List Line) (fd i : Nat) :
    connection (lines ++ [{ listenfd := fd, acceptfd := 0 }]) i = connection lines i := by
  unfold connection
  rcases Nat.lt_trichotomy i lines.length with before | rfl | after
  · rw [List.getElem?_append_left before]
  · simp
  · rw [List.getElem?_append_right (Nat.le_of_lt after),
      List.getElem?_eq_none (Nat.le_of_lt after)]
    have beyond : 1 ≤ i - lines.length := by omega
    rw [List.getElem?_eq_none (by simpa using beyond)]

theorem lt_length_of_connection {lines : List Line} {i : Nat} (nonzero : connection lines i ≠ 0) :
    i < lines.length := by
  by_contra outside
  apply nonzero
  rw [connection, List.getElem?_eq_none (Nat.le_of_not_lt outside)]
  rfl

theorem exists_connection {lines : List Line} {line : Line} (inside : line ∈ lines) :
    ∃ i, connection lines i = line.acceptfd := by
  obtain ⟨i, found⟩ := List.mem_iff_getElem?.mp inside
  exact ⟨i, by simp [connection, found]⟩

theorem Distinct.tail {line : Line} {lines : List Line} (distinct : Distinct (line :: lines)) :
    Distinct lines := fun i j nonzero same =>
  Nat.succ.inj (distinct (i + 1) (j + 1) nonzero same)

theorem Distinct.release {lines : List Line} (distinct : Distinct lines) {fds : Finset Nat}
    (zero : 0 ∉ fds) : Distinct (lines.map (Line.release fds)) := by
  intro i j nonzero same
  rw [connection_release zero] at nonzero same
  rw [connection_release zero] at same
  split at nonzero
  · exact absurd rfl nonzero
  · rename_i kept
    rw [if_neg kept] at same
    split at same
    · exact absurd same nonzero
    · exact distinct i j nonzero same

/-- Only the line with the connection changes. -/
theorem clearLine_eq {fd : Nat} {lines : List Line} (nonzero : fd ≠ 0)
    (listening : ∀ line ∈ lines, line.listenfd ≠ 0) (distinct : Distinct lines) :
    clearLine fd lines = lines.map (Line.release {fd}) := by
  induction lines with
  | nil => rfl
  | cons line lines ih =>
      have head := listening line List.mem_cons_self
      by_cases here : fd = line.acceptfd
      · have others : lines.map (Line.release {fd}) = lines := by
          refine (List.map_congr_left fun other inside => ?_).trans (List.map_id lines)
          obtain ⟨j, found⟩ := exists_connection inside
          refine if_neg fun same => ?_
          rw [Finset.mem_singleton, here, ← found] at same
          have head : connection (line :: lines) 0 ≠ 0 := fun none => nonzero (here.trans none)
          cases distinct 0 (j + 1) head same.symm
        simp [clearLine, head, ← here, Line.release, others]
      · have rest := ih (fun line inside => listening line (List.mem_cons_of_mem _ inside))
          distinct.tail
        simp [clearLine, head, here, Line.release, rest, Ne.symm here]

theorem Line.release_insert (fds : Finset Nat) {fd : Nat} (nonzero : fd ≠ 0) (line : Line) :
    (line.release fds).release {fd} = line.release (insert fd fds) := by
  by_cases inside : line.acceptfd ∈ fds
  · simp [Line.release, inside, nonzero.symm]
  · simp [Line.release, inside]

/-- The requests below `bound` that the clear block grants. -/
def granted (s : Server) (bound : Nat) : Finset Nat :=
  (s.clrfds ∩ s.rfds).filter (· < bound)

theorem granted_succ (s : Server) (bound : Nat) :
    granted s (bound + 1) =
      if bound ∈ s.clrfds ∧ bound ∈ s.rfds then insert bound (granted s bound)
      else granted s bound := by
  ext fd
  by_cases here : bound ∈ s.clrfds ∧ bound ∈ s.rfds
  · rw [if_pos here]
    by_cases same : fd = bound
    · simp [granted, same, here]
    · have below : fd < bound + 1 ↔ fd < bound := by omega
      simp only [granted, Finset.mem_filter, below, Finset.mem_insert, same, false_or]
  · rw [if_neg here]
    by_cases same : fd = bound
    · simp [granted, same, here]
    · have below : fd < bound + 1 ↔ fd < bound := by omega
      simp only [granted, Finset.mem_filter, below]

theorem zero_notMem_granted {s : Server} (zero : 0 ∉ s.clrfds) (bound : Nat) :
    0 ∉ granted s bound := by
  simp [granted, zero]

/-- The descriptors `fds` are closed and taken from the sets and the lines. -/
def release (s : Server) (fds : Finset Nat) : Server :=
  { s with
    opened := s.opened \ fds
    infds := s.infds \ fds
    lines := s.lines.map (Line.release fds) }

theorem release_empty (s : Server) : release s ∅ = s := by
  have lines : s.lines.map (Line.release ∅) = s.lines :=
    (List.map_congr_left fun line _ => if_neg (Finset.notMem_empty _)).trans (List.map_id _)
  simp [release, lines]

theorem clearFd_release {s : Server} {fds : Finset Nat} {fd : Nat} (zero : 0 ∉ s.clrfds)
    (zeroFds : 0 ∉ fds) (listening : ∀ line ∈ s.lines, line.listenfd ≠ 0)
    (distinct : Distinct s.lines) :
    clearFd (release s fds) fd =
      release s (if fd ∈ s.clrfds ∧ fd ∈ s.rfds then insert fd fds else fds) := by
  by_cases here : fd ∈ s.clrfds ∧ fd ∈ s.rfds
  · have nonzero : fd ≠ 0 := fun same => zero (same ▸ here.1)
    have lines : clearLine fd (s.lines.map (Line.release fds)) =
        s.lines.map (Line.release (insert fd fds)) := by
      rw [clearLine_eq nonzero ?_ (distinct.release zeroFds), List.map_map]
      · exact List.map_congr_left fun line _ => Line.release_insert fds nonzero line
      · intro line inside
        obtain ⟨before, member, rfl⟩ := List.mem_map.mp inside
        rw [Line.release_listenfd]
        exact listening before member
    simp [clearFd, release, here, lines, Finset.sdiff_insert]
  · simp [clearFd, release, here]

theorem foldl_clearFd {s : Server} (zero : 0 ∉ s.clrfds)
    (listening : ∀ line ∈ s.lines, line.listenfd ≠ 0) (distinct : Distinct s.lines)
    (bound : Nat) :
    (List.range bound).foldl clearFd s = release s (granted s bound) := by
  induction bound with
  | zero =>
      have none : granted s 0 = ∅ := by simp [granted]
      rw [none, release_empty]
      rfl
  | succ bound ih =>
      rw [List.range_succ, List.foldl_append, ih, List.foldl_cons, List.foldl_nil,
        clearFd_release zero (zero_notMem_granted zero bound) listening distinct, granted_succ]

/-! ## The invariant -/

/-- A connection is open, in the set of `select` and within its range. -/
def Connected (s : Server) (fd : Nat) : Prop :=
  fd ∈ s.infds ∧ fd ∈ s.opened ∧ fd ≤ s.maxfd

/-- What holds of the server between any two steps. -/
structure Valid (s : Server) : Prop where
  zeroOpened : 0 ∈ s.opened
  zeroInfds : 0 ∉ s.infds
  zeroClrfds : 0 ∉ s.clrfds
  listening : ∀ line ∈ s.lines, line.listenfd ≠ 0
  distinct : Distinct s.lines
  connected : ∀ i, connection s.lines i ≠ 0 → Connected s (connection s.lines i)

/-- How `rfds` comes from the last `select`. -/
structure Selected (s : Server) : Prop where
  fresh : s.pc = .listening → s.lastSelect = none ∧ ∀ i, connection s.lines i = 0
  copied : s.pc = .select → s.rfds = s.infds
  scanned : ∀ fd, s.pc = .scan fd → s.lastSelect = some s.rfds ∧ 0 ∉ s.rfds
  returned : s.pc = .clear → ∀ ready, s.lastSelect = some ready → s.rfds = ready
  failed : s.pc = .clear → s.lastSelect = none → ∀ i, connection s.lines i ≠ 0 →
    connection s.lines i ∈ s.rfds

/-- The clear block closes the requested connections that are in `rfds`. -/
theorem clearBlock_eq {s : Server} (valid : Valid s) (requested : s.clrflag = true) :
    clearBlock s =
      { release s (granted s (s.maxfd + 1)) with clrflag := false, clrfds := ∅ } := by
  rw [clearBlock, if_pos requested,
    foldl_clearFd valid.zeroClrfds valid.listening valid.distinct]

variable {s t : Server}

theorem Valid.addLine (valid : Valid s) {fd : Nat} (new : fd ∉ s.opened) :
    Valid (addLine fd s) where
  zeroOpened := Finset.mem_insert_of_mem valid.zeroOpened
  zeroInfds inside := by
    rcases Finset.mem_insert.mp inside with rfl | inside
    · exact new valid.zeroOpened
    · exact valid.zeroInfds inside
  zeroClrfds := valid.zeroClrfds
  listening line inside := by
    rcases List.mem_append.mp inside with inside | added
    · exact valid.listening line inside
    · rw [List.mem_singleton.mp added]
      rintro rfl
      exact new valid.zeroOpened
  distinct i j nonzero same := by
    simp only [AsynccomClear.addLine, connection_append] at nonzero same
    exact valid.distinct i j nonzero same
  connected i nonzero := by
    simp only [AsynccomClear.addLine, connection_append] at nonzero ⊢
    obtain ⟨inside, opened, bounded⟩ := valid.connected i nonzero
    exact ⟨Finset.mem_insert_of_mem inside, Finset.mem_insert_of_mem opened,
      bounded.trans (Nat.le_max_left _ _)⟩

theorem Valid.release (valid : Valid s) {fds : Finset Nat} (zero : 0 ∉ fds) :
    Valid (release s fds) where
  zeroOpened := Finset.mem_sdiff.mpr ⟨valid.zeroOpened, zero⟩
  zeroInfds inside := valid.zeroInfds (Finset.mem_sdiff.mp inside).1
  zeroClrfds := valid.zeroClrfds
  listening line inside := by
    obtain ⟨before, member, rfl⟩ := List.mem_map.mp inside
    rw [Line.release_listenfd]
    exact valid.listening before member
  distinct := valid.distinct.release zero
  connected i nonzero := by
    simp only [AsynccomClear.release, connection_release zero] at nonzero ⊢
    split at nonzero
    · exact absurd rfl nonzero
    · rename_i kept
      rw [if_neg kept]
      obtain ⟨inside, opened, bounded⟩ := valid.connected i nonzero
      exact ⟨Finset.mem_sdiff.mpr ⟨inside, kept⟩, Finset.mem_sdiff.mpr ⟨opened, kept⟩, bounded⟩

theorem Valid.clearBlock (valid : Valid s) : Valid (clearBlock s) := by
  cases requested : s.clrflag with
  | true =>
      rw [clearBlock_eq valid requested]
      have released := valid.release (zero_notMem_granted valid.zeroClrfds (s.maxfd + 1))
      exact ⟨released.zeroOpened, released.zeroInfds, Finset.notMem_empty 0, released.listening,
        released.distinct, released.connected⟩
  | false =>
      rw [AsynccomClear.clearBlock, if_neg (by rw [requested]; exact Bool.false_ne_true)]
      exact valid

/-- The lines after one of them has been given another connection. -/
theorem listenfd_modify {lines : List Line} {k fd : Nat}
    (listening : ∀ line ∈ lines, line.listenfd ≠ 0) :
    ∀ line ∈ lines.modify k fun line => { line with acceptfd := fd }, line.listenfd ≠ 0 := by
  intro line inside
  obtain ⟨i, found⟩ := List.mem_iff_getElem?.mp inside
  rcases of_getElem?_modify found with ⟨-, old, before, rfl⟩ | ⟨-, before⟩
  · exact listening old (List.mem_of_getElem? before)
  · exact listening line (List.mem_of_getElem? before)

/-- The new connection is none of those that the lines have. -/
theorem Valid.connection_ne (valid : Valid s) {acceptfd : Nat} (new : acceptfd ∉ s.opened)
    (i : Nat) : connection s.lines i ≠ acceptfd := by
  intro same
  by_cases none : connection s.lines i = 0
  · rw [none] at same
    exact new (same ▸ valid.zeroOpened)
  · exact new (same ▸ (valid.connected i none).2.1)

theorem of_mem_forget {old fd : Nat} {fds : Finset Nat} (inside : fd ∈ forget old fds) :
    fd ∈ fds := by
  unfold forget at inside
  split at inside
  · exact inside
  · exact Finset.mem_of_mem_erase inside

theorem mem_forget {old fd : Nat} {fds : Finset Nat} (inside : fd ∈ fds)
    (other : old ≠ 0 → fd ≠ old) : fd ∈ forget old fds := by
  unfold forget
  split
  · exact inside
  · rename_i nonzero
    exact Finset.mem_erase.mpr ⟨other nonzero, inside⟩

theorem Valid.handleListenFD (valid : Valid s) {index acceptfd : Nat}
    (new : acceptfd ∉ s.opened) : Valid (handleListenFD index acceptfd s) where
  zeroOpened := Finset.mem_insert_of_mem (mem_forget valid.zeroOpened Ne.symm)
  zeroInfds inside := by
    rcases Finset.mem_insert.mp inside with rfl | inside
    · exact new valid.zeroOpened
    · exact valid.zeroInfds (of_mem_forget inside)
  zeroClrfds := valid.zeroClrfds
  listening := listenfd_modify valid.listening
  distinct i j nonzero same := by
    simp only [AsynccomClear.handleListenFD, connection_modify] at nonzero same
    split at same <;> split at same
    · rename_i here there
      exact here.1.symm.trans there.1
    · exact absurd same.symm (valid.connection_ne new j)
    · exact absurd same (valid.connection_ne new i)
    · rename_i elsewhere _
      rw [if_neg elsewhere] at nonzero
      exact valid.distinct i j nonzero same
  connected i nonzero := by
    simp only [AsynccomClear.handleListenFD, connection_modify] at nonzero ⊢
    by_cases here : index = i ∧ index < s.lines.length
    · rw [if_pos here]
      exact ⟨Finset.mem_insert_self _ _, Finset.mem_insert_self _ _, Nat.le_max_right _ _⟩
    · rw [if_neg here] at nonzero ⊢
      obtain ⟨inside, opened, bounded⟩ := valid.connected i nonzero
      have other : connection s.lines index ≠ 0 →
          connection s.lines i ≠ connection s.lines index := fun old same =>
        here ⟨valid.distinct index i old same.symm, lt_length_of_connection old⟩
      exact ⟨Finset.mem_insert_of_mem (mem_forget inside other),
        Finset.mem_insert_of_mem (mem_forget opened other), bounded.trans (Nat.le_max_left _ _)⟩

theorem Valid.closeConnection (valid : Valid s) {index : Nat}
    (nonzero : connection s.lines index ≠ 0) :
    Valid (closeConnection index (connection s.lines index) s) where
  zeroOpened := Finset.mem_erase.mpr ⟨nonzero.symm, valid.zeroOpened⟩
  zeroInfds inside := valid.zeroInfds (Finset.mem_of_mem_erase inside)
  zeroClrfds := valid.zeroClrfds
  listening := listenfd_modify valid.listening
  distinct i j kept same := by
    simp only [AsynccomClear.closeConnection, connection_modify] at kept same
    split at same
    · rename_i here
      exact absurd (if_pos here) kept
    · rename_i elsewhere
      rw [if_neg elsewhere] at kept
      split at same
      · exact absurd same kept
      · exact valid.distinct i j kept same
  connected i kept := by
    simp only [AsynccomClear.closeConnection, connection_modify] at kept ⊢
    by_cases here : index = i ∧ index < s.lines.length
    · exact absurd (if_pos here) kept
    · rw [if_neg here] at kept ⊢
      obtain ⟨inside, opened, bounded⟩ := valid.connected i kept
      have other : connection s.lines i ≠ connection s.lines index := fun same =>
        here ⟨(valid.distinct i index kept same).symm, lt_length_of_connection nonzero⟩
      exact ⟨Finset.mem_erase.mpr ⟨other, inside⟩, Finset.mem_erase.mpr ⟨other, opened⟩, bounded⟩

/-- The handler never requests to clear a line without a connection. -/
theorem Valid.handleSIGUSR1 (valid : Valid s) (lockdata : List Nat) :
    Valid (handleSIGUSR1 lockdata s) where
  zeroOpened := valid.zeroOpened
  zeroInfds := valid.zeroInfds
  zeroClrfds inside := by
    rcases Finset.mem_union.mp inside with inside | inside
    · exact valid.zeroClrfds inside
    · obtain ⟨entry, member, zero⟩ := List.mem_map.mp (List.mem_toFinset.mp inside)
      have := (List.mem_filter.mp member).2
      simp [zero] at this
  listening := valid.listening
  distinct := valid.distinct
  connected := valid.connected

/-- A connection that is dispatched to its line. -/
theorem connection_of_dispatch {fd i : Nat} {lines : List Line}
    (found : dispatch fd lines = some (i, false)) : connection lines i = fd := by
  induction lines generalizing i with
  | nil => cases found
  | cons line lines ih =>
      unfold dispatch at found
      split at found
      · cases found
      · split at found
        · cases found
        · split at found
          · rename_i here
            cases found
            exact here.symm
          · obtain ⟨⟨j, kind⟩, there, same⟩ := Option.map_eq_some_iff.mp found
            cases same
            exact ih there

/-- What a step can do, with what it requires. -/
inductive Move (s : Server) : Server → Prop
  | listen {fd : Nat} (there : s.pc = .listening) (new : fd ∉ s.opened) : Move s (addLine fd s)
  | serve (there : s.pc = .listening) : Move s { s with pc := .clear }
  | clear : Move s { clearBlock s with pc := .copy }
  | copy : Move s { s with rfds := s.infds, pc := .select }
  | selectFails (there : s.pc = .select) : Move s { s with pc := .clear, lastSelect := none }
  | selectReturns {ready : Finset Nat} (there : s.pc = .select) (among : ready ⊆ s.rfds) :
      Move s { s with rfds := ready, pc := .scan 0, lastSelect := some ready }
  | pass {fd : Nat} (there : s.pc = .scan fd) : Move s { s with pc := .scan (fd + 1) }
  | accept {fd index acceptfd : Nat} (there : s.pc = .scan fd) (new : acceptfd ∉ s.opened) :
      Move s { handleListenFD index acceptfd s with pc := .scan (fd + 1) }
  | close {fd index : Nat} (there : s.pc = .scan fd) (ready : fd ∈ s.rfds)
      (own : connection s.lines index = fd) :
      Move s { closeConnection index fd s with pc := .scan (fd + 1) }
  | scanned {fd : Nat} (there : s.pc = .scan fd) : Move s { s with pc := .clear }
  | sigusr1 (lockdata : List Nat) : Move s (handleSIGUSR1 lockdata s)

theorem of_current {fd index : Nat} {kind : Bool} (found : current s = some (fd, index, kind)) :
    s.pc = .scan fd ∧ fd ∈ s.rfds ∧ dispatch fd s.lines = some (index, kind) := by
  unfold current at found
  split at found
  · rename_i fd' there
    split at found
    · rename_i ready
      obtain ⟨line, dispatched, same⟩ := Option.map_eq_some_iff.mp found
      cases same
      exact ⟨there, ready.2, dispatched⟩
    · cases found
  · cases found

theorem Move.of_step {action : Action} (taken : step s action = some t) : Move s t := by
  cases action with
  | listen fd =>
      obtain ⟨condition, same⟩ := Option.ite_none_right_eq_some.mp taken
      cases same
      exact .listen condition.1 condition.2.2
  | serve =>
      obtain ⟨there, same⟩ := Option.ite_none_right_eq_some.mp taken
      cases same
      exact .serve there
  | clear =>
      cases (Option.ite_none_right_eq_some.mp taken).2
      exact .clear
  | copy =>
      cases (Option.ite_none_right_eq_some.mp taken).2
      exact .copy
  | selectFails =>
      obtain ⟨there, same⟩ := Option.ite_none_right_eq_some.mp taken
      cases same
      exact .selectFails there
  | selectReturns ready =>
      obtain ⟨condition, same⟩ := Option.ite_none_right_eq_some.mp taken
      cases same
      exact .selectReturns condition.1 condition.2
  | pass =>
      cases there : s.pc <;> simp [step, there] at taken
      rw [← taken.2]
      exact .pass there
  | accept acceptfd =>
      simp only [step] at taken
      split at taken
      · rename_i here
        obtain ⟨new, same⟩ := Option.ite_none_right_eq_some.mp taken
        cases same
        exact .accept (of_current here).1 new
      · cases taken
  | close =>
      simp only [step] at taken
      split at taken
      · rename_i here
        cases taken
        obtain ⟨there, ready, dispatched⟩ := of_current here
        exact .close there ready (connection_of_dispatch dispatched)
      · cases taken
  | scanned =>
      cases there : s.pc <;> simp [step, there] at taken
      rw [← taken.2]
      exact .scanned there
  | sigusr1 lockdata =>
      cases taken
      exact .sigusr1 lockdata

theorem Move.valid (move : Move s t) (valid : Valid s) (selected : Selected s) : Valid t := by
  have same (u : Server) (pc : Pc) (rfds : Finset Nat) (lastSelect : Option (Finset Nat))
      (valid : Valid u) : Valid { u with pc := pc, rfds := rfds, lastSelect := lastSelect } :=
    ⟨valid.zeroOpened, valid.zeroInfds, valid.zeroClrfds, valid.listening, valid.distinct,
      valid.connected⟩
  cases move with
  | listen _ new => exact valid.addLine new
  | serve | copy | selectFails | selectReturns | pass | scanned => exact same s _ _ _ valid
  | clear => exact same _ _ _ _ valid.clearBlock
  | accept _ new => exact same _ _ _ _ (valid.handleListenFD new)
  | @close fd index there ready own =>
      subst own
      refine same _ _ _ _ (valid.closeConnection fun zero => ?_)
      exact (selected.scanned _ there).2 (zero ▸ ready)
  | sigusr1 lockdata => exact valid.handleSIGUSR1 lockdata

theorem Move.selected (move : Move s t) (valid : Valid s) (selected : Selected s) :
    Selected t := by
  cases move with
  | listen there new =>
      refine ⟨fun _ => ⟨(selected.fresh there).1, fun i => ?_⟩,
        fun elsewhere => (nomatch there.symm.trans elsewhere),
        fun _ elsewhere => (nomatch there.symm.trans elsewhere),
        fun elsewhere => (nomatch there.symm.trans elsewhere),
        fun elsewhere => (nomatch there.symm.trans elsewhere)⟩
      simp only [AsynccomClear.addLine, connection_append]
      exact (selected.fresh there).2 i
  | serve there =>
      obtain ⟨last, unserved⟩ := selected.fresh there
      refine ⟨nofun, nofun, nofun, fun _ ready same => ?_, fun _ _ i nonzero => ?_⟩
      · rw [last] at same
        cases same
      · exact absurd (unserved i) nonzero
  | clear => exact ⟨nofun, nofun, nofun, nofun, nofun⟩
  | copy => exact ⟨nofun, fun _ => rfl, nofun, nofun, nofun⟩
  | selectFails there =>
      refine ⟨nofun, nofun, nofun, nofun, fun _ _ i nonzero => ?_⟩
      rw [selected.copied there]
      exact (valid.connected i nonzero).1
  | selectReturns there among =>
      refine ⟨nofun, nofun, fun _ _ => ⟨rfl, fun zero => ?_⟩, nofun, nofun⟩
      have inside := among zero
      rw [selected.copied there] at inside
      exact valid.zeroInfds inside
  | pass there => exact ⟨nofun, nofun, fun _ _ => selected.scanned _ there, nofun, nofun⟩
  | accept there new => exact ⟨nofun, nofun, fun _ _ => selected.scanned _ there, nofun, nofun⟩
  | close there ready own =>
      exact ⟨nofun, nofun, fun _ _ => selected.scanned _ there, nofun, nofun⟩
  | scanned there =>
      obtain ⟨last, -⟩ := selected.scanned _ there
      refine ⟨nofun, nofun, nofun, fun _ ready same => ?_, fun _ none => ?_⟩
      · rw [last] at same
        cases same
        rfl
      · rw [last] at none
        cases none
  | sigusr1 lockdata =>
      exact ⟨selected.fresh, selected.copied, selected.scanned, selected.returned,
        selected.failed⟩

theorem preserved_valid_selected :
    Preserved step (fun _ _ => True) fun s => Valid s ∧ Selected s := by
  intro s action t inv _ taken
  have move := Move.of_step taken
  exact ⟨move.valid inv.1 inv.2, move.selected inv.1 inv.2⟩

theorem valid_start (rfds : Finset Nat) : Valid (start rfds) :=
  ⟨by simp [start], by simp [start], by simp [start], nofun, fun _ _ nonzero => absurd rfl nonzero,
    fun _ nonzero => absurd rfl nonzero⟩

theorem selected_start (rfds : Finset Nat) : Selected (start rfds) :=
  ⟨fun _ => ⟨rfl, fun _ => rfl⟩, nofun, nofun, nofun, nofun⟩

/-! ## Which requests are granted -/

/-- Unless it was interrupted, the last `select` reported every connection ready that is to
be cleared. -/
def Reported (s : Server) : Prop :=
  ∀ ready, s.lastSelect = some ready → ∀ i, connection s.lines i ∈ s.clrfds →
    connection s.lines i ∈ ready

/-- The connection of the line in `s` is closed and forgotten in `t`. -/
def Cleared (s t : Server) (i : Nat) : Prop :=
  connection s.lines i ∉ t.opened ∧ connection s.lines i ∉ t.infds ∧ connection t.lines i = 0

/-- A requested connection is cleared when it is in `rfds`, and only then. -/
theorem cleared_iff (valid : Valid s) (requested : s.clrflag = true) {i : Nat}
    (inside : connection s.lines i ∈ s.clrfds) :
    Cleared s (clearBlock s) i ↔ connection s.lines i ∈ s.rfds := by
  have zero := zero_notMem_granted valid.zeroClrfds (s.maxfd + 1)
  have nonzero : connection s.lines i ≠ 0 := fun none => valid.zeroClrfds (none ▸ inside)
  rw [Cleared, clearBlock_eq valid requested]
  simp only [release, connection_release zero, Finset.mem_sdiff]
  constructor
  · rintro ⟨-, -, forgotten⟩
    by_contra missing
    have kept : connection s.lines i ∉ granted s (s.maxfd + 1) := fun given =>
      missing (Finset.mem_inter.mp (Finset.mem_filter.mp given).1).2
    rw [if_neg kept] at forgotten
    exact nonzero forgotten
  · intro ready
    have bounded := (valid.connected i nonzero).2.2
    have given : connection s.lines i ∈ granted s (s.maxfd + 1) :=
      Finset.mem_filter.mpr ⟨Finset.mem_inter.mpr ⟨inside, ready⟩, Nat.lt_succ_of_le bounded⟩
    exact ⟨fun kept => kept.2 given, fun kept => kept.2 given, if_pos given⟩

/-- At every clear block that resets the requests, all requested connections are cleared
exactly when the last `select` was interrupted or reported them ready. -/
theorem clear_requests_granted_iff (rfds : Finset Nat) (actions : List Action) {s : Server}
    (reached : run step (start rfds) actions = some s) (there : s.pc = .clear)
    (requested : s.clrflag = true) :
    (∀ i, connection s.lines i ∈ s.clrfds → Cleared s (clearBlock s) i) ↔ Reported s := by
  obtain ⟨valid, selected⟩ := preserved_valid_selected.run
    ⟨valid_start rfds, selected_start rfds⟩ (meets_true actions) reached
  constructor
  · intro granted ready last i inside
    rw [← selected.returned there ready last]
    exact (cleared_iff valid requested inside).mp (granted i inside)
  · intro reported i inside
    refine (cleared_iff valid requested inside).mpr ?_
    cases last : s.lastSelect with
    | none =>
        have nonzero : connection s.lines i ≠ 0 := fun none => valid.zeroClrfds (none ▸ inside)
        exact selected.failed there last i nonzero
    | some ready =>
        rw [selected.returned there ready last]
        exact reported ready last i inside

/-- One line with a connection, after a round in which only the listening socket was ready. -/
def accepted : List Action :=
  [.listen 3, .serve, .clear, .copy, .selectReturns {3}, .pass, .pass, .pass, .accept 4, .pass,
    .scanned, .clear, .copy]

/-- The request arrives while `select` waits. -/
theorem clear_requests_granted_iff_interrupted :
    ∃ s, run step (start ∅) (accepted ++ [.sigusr1 [], .selectFails]) = some s ∧
      s.clrfds = {4} ∧ connection s.lines 0 = 4 ∧
      ((∀ i, connection s.lines i ∈ s.clrfds → Cleared s (clearBlock s) i) ↔ Reported s) :=
  ⟨_, rfl, rfl, rfl, clear_requests_granted_iff ∅ (accepted ++ [.sigusr1 [], .selectFails]) rfl rfl
    rfl⟩

/-- The request arrives while the round handles another descriptor: it is reset, and the
connection stays open. -/
theorem not_clear_requests_granted :
    ¬ ∀ (rfds : Finset Nat) (actions : List Action) (s : Server),
      run step (start rfds) actions = some s → s.pc = .clear → s.clrflag = true →
        ∀ i, connection s.lines i ∈ s.clrfds → Cleared s (clearBlock s) i := by
  intro all
  have cleared := all ∅ (accepted ++ [.selectReturns {3}, .sigusr1 [], .pass, .pass, .pass, .pass,
    .pass, .scanned]) _ rfl rfl rfl 0 (by decide)
  exact absurd cleared.2.2 (by decide)

end FrameCode.AsynccomClear
