import FrameCode.LabelledRuns

/-!
# The child process monitor

`Fix_AllChildProcess_ByList` walks the list of configured children and forks those
that do not run; `func_waitpid` is the `SIGCHLD` handler that reaps the children that
exited and marks their nodes.  The handler interrupts the main flow between any two
of its statements, and the main flow stands still while the handler runs.

A child that exits after `fork` has returned and before `iPocessStatus := 1` is reaped
by a handler whose mark is then overwritten, or which finds no node with that pid.
-/

namespace FrameCode.MonitorChildProcess

/-- A node of the list.  `lastForked` is not in the source: it names the child that was
last forked for the node, by its place among all the children ever forked. -/
structure ChildProcess where
  iPocessStatus : Nat := 0
  iPid : Nat := 0
  lastForked : Option Nat := none
  deriving DecidableEq

inductive Life
  | running
  | exited
  | reaped
  deriving DecidableEq

/-- A child as the kernel knows it. -/
structure Child where
  pid : Nat
  life : Life
  deriving DecidableEq

/-- The next statement of the main flow. -/
inductive MainPc
  | sleep
  | testStatus (i : Nat)
  | fork (i : Nat)
  | setPid (i : Nat) (iRet : Nat)
  | setStatus (i : Nat)
  deriving DecidableEq

structure Monitor where
  list : List ChildProcess
  children : List Child
  main : MainPc
  signalPending : Bool
  inHandler : Bool
  deriving DecidableEq

/-- The monitor before its first round, with `count` configured children. -/
def start (count : Nat) : Monitor where
  list := List.replicate count {}
  children := []
  main := .sleep
  signalPending := false
  inHandler := false

/-- One statement of the main flow, one `waitpid` of the handler with the walk that
follows it, or an event of the kernel. -/
inductive Action
  | beginRound
  | testStatus
  | fork (pid : Nat)
  | forkFails
  | setPid
  | setStatus
  | exit (child : Nat)
  | signal
  | waitpid (child : Nat)
  | handlerReturns
  deriving DecidableEq

namespace Monitor

variable (s : Monitor)

/-- A pid that no child holds which is not reaped yet. -/
def freshPid (pid : Nat) : Bool :=
  0 < pid && s.children.all fun child => child.life == .reaped || child.pid != pid

/-- The body of the loop over the list, up to the fork. -/
def testStatus (i : Nat) : MainPc :=
  match s.list[i]? with
  | none => .sleep
  | some node =>
      if node.iPocessStatus = 1 then .testStatus (i + 1)
      else if node.iPocessStatus = 2 ∨ node.iPocessStatus = 0 then .fork i
      else .testStatus (i + 1)

/-- The child gets `pid`, and `fork` returns it to the main flow. -/
def forked (i pid : Nat) : Monitor where
  list := s.list.modify i fun node => { node with lastForked := some s.children.length }
  children := s.children ++ [{ pid := pid, life := .running }]
  main := .setPid i pid
  signalPending := s.signalPending
  inHandler := s.inHandler

def childExits (child : Nat) : Monitor where
  list := s.list
  children := s.children.modify child fun c => { c with life := .exited }
  main := s.main
  signalPending := true
  inHandler := s.inHandler

/-- `waitpid` delivers a child that exited, and every node with its pid is marked. -/
def funcWaitpid (child pid : Nat) : Monitor where
  list := s.list.map fun node => if pid = node.iPid then { node with iPocessStatus := 2 } else node
  children := s.children.modify child fun c => { c with life := .reaped }
  main := s.main
  signalPending := s.signalPending
  inHandler := s.inHandler

/-- One statement of the main flow. -/
def mainStep : Action → Option Monitor
  | .beginRound => if s.main = .sleep then some { s with main := .testStatus 0 } else none
  | .testStatus =>
      match s.main with
      | .testStatus i => some { s with main := s.testStatus i }
      | _ => none
  | .fork pid =>
      match s.main with
      | .fork i => if s.freshPid pid then some (s.forked i pid) else none
      | _ => none
  | .forkFails =>
      match s.main with
      | .fork _ => some { s with main := .sleep }
      | _ => none
  | .setPid =>
      match s.main with
      | .setPid i iRet =>
          some { s with
            list := s.list.modify i fun node => { node with iPid := iRet }
            main := .setStatus i }
      | _ => none
  | .setStatus =>
      match s.main with
      | .setStatus i =>
          some { s with
            list := s.list.modify i fun node => { node with iPocessStatus := 1 }
            main := .testStatus (i + 1) }
      | _ => none
  | _ => none

/-- The kernel and the handler move at any time, the main flow outside the handler. -/
def step : Action → Option Monitor
  | .exit child =>
      match s.children[child]? with
      | some c => if c.life = .running then some (s.childExits child) else none
      | none => none
  | .signal =>
      if s.signalPending ∧ ¬ s.inHandler then
        some { s with signalPending := false, inHandler := true }
      else none
  | .waitpid child =>
      match s.children[child]? with
      | some c =>
          if s.inHandler ∧ c.life = .exited then some (s.funcWaitpid child c.pid) else none
      | none => none
  | .handlerReturns =>
      if s.inHandler ∧ ∀ c ∈ s.children, c.life ≠ .exited then
        some { s with inHandler := false }
      else none
  | action => if s.inHandler then none else s.mainStep action

/-- The round has finished and all pending handlers have run. -/
def Settled : Prop :=
  s.main = .sleep ∧ s.signalPending = false ∧ s.inHandler = false

/-- What has become of the child last forked for the node. -/
def ChildIs (life : Life) (node : ChildProcess) : Prop :=
  ∃ k child, node.lastForked = some k ∧ s.children[k]? = some child ∧ child.life = life

/-- The node for which a child has been forked whose status is not recorded yet. -/
def recording : Option ChildProcess :=
  match s.main with
  | .setPid i _ => s.list[i]?
  | .setStatus i => s.list[i]?
  | _ => none

end Monitor

/-- The handler does not reap a child that is still being recorded. -/
def AfterRecording (s : Monitor) : Action → Prop
  | .waitpid child => ∀ node ∈ s.recording, node.lastForked ≠ some child
  | _ => True

instance (s : Monitor) : ∀ action, Decidable (AfterRecording s action)
  | .waitpid child =>
      inferInstanceAs (Decidable (∀ node ∈ s.recording, node.lastForked ≠ some child))
  | .beginRound | .testStatus | .fork _ | .forkFails | .setPid | .setStatus | .exit _ | .signal
  | .handlerReturns => isTrue trivial

variable {s t : Monitor}

/-- What a step can do, with what it requires. -/
inductive Move (s : Monitor) : Action → Monitor → Prop
  | beginRound : Move s .beginRound { s with main := .testStatus 0 }
  | testStatus (i : Nat) : Move s .testStatus { s with main := s.testStatus i }
  | forkFails : Move s .forkFails { s with main := .sleep }
  | fork {i pid : Nat} (there : s.main = .fork i) : Move s (.fork pid) (s.forked i pid)
  | setPid {i iRet : Nat} (there : s.main = .setPid i iRet) : Move s .setPid { s with
      list := s.list.modify i fun node => { node with iPid := iRet }
      main := .setStatus i }
  | setStatus {i : Nat} (there : s.main = .setStatus i) : Move s .setStatus { s with
      list := s.list.modify i fun node => { node with iPocessStatus := 1 }
      main := .testStatus (i + 1) }
  | exit (k : Nat) : Move s (.exit k) (s.childExits k)
  | signal : Move s .signal { s with signalPending := false, inHandler := true }
  | waitpid {k : Nat} {child : Child} (handling : s.inHandler = true)
      (found : s.children[k]? = some child) : Move s (.waitpid k) (s.funcWaitpid k child.pid)
  | handlerReturns (none : ∀ child ∈ s.children, child.life ≠ .exited) :
      Move s .handlerReturns { s with inHandler := false }

theorem Move.of_mainStep {action : Action} (taken : s.mainStep action = some t) :
    Move s action t := by
  cases action with
  | beginRound =>
      cases (Option.ite_none_right_eq_some.mp taken).2
      exact .beginRound
  | testStatus =>
      cases there : s.main <;> simp [Monitor.mainStep, there] at taken
      subst taken
      exact .testStatus _
  | fork pid =>
      cases there : s.main <;> simp [Monitor.mainStep, there] at taken
      rw [← taken.2]
      exact .fork there
  | forkFails =>
      cases there : s.main <;> simp [Monitor.mainStep, there] at taken
      subst taken
      exact .forkFails
  | setPid =>
      cases there : s.main <;> simp [Monitor.mainStep, there] at taken
      subst taken
      exact .setPid there
  | setStatus =>
      cases there : s.main <;> simp [Monitor.mainStep, there] at taken
      subst taken
      exact .setStatus there
  | exit | signal | waitpid | handlerReturns => cases taken

theorem Move.of_step {action : Action} (taken : s.step action = some t) : Move s action t := by
  cases action with
  | exit k =>
      cases found : s.children[k]? <;> simp [Monitor.step, found] at taken
      rw [← taken.2]
      exact .exit k
  | signal =>
      cases (Option.ite_none_right_eq_some.mp taken).2
      exact .signal
  | waitpid k =>
      cases found : s.children[k]? <;> simp [Monitor.step, found] at taken
      rw [← taken.2]
      exact .waitpid taken.1.1 found
  | handlerReturns =>
      obtain ⟨condition, same⟩ := Option.ite_none_right_eq_some.mp taken
      cases same
      exact .handlerReturns condition.2
  | beginRound | testStatus | fork | forkFails | setPid | setStatus =>
      exact .of_mainStep (Option.ite_none_left_eq_some.mp taken).2

/-! ## No exit is lost outside the recording -/

/-- The child last forked for the node has this pid and is not reaped. -/
def Alive (children : List Child) (node : ChildProcess) (pid : Nat) : Prop :=
  ∃ k child, node.lastForked = some k ∧ children[k]? = some child ∧ child.pid = pid ∧
    child.life ≠ .reaped

/-- Every node marked as running names its own child, and so do the node of a child that
has just been forked and the pid that `fork` returned for it. -/
structure Kept (s : Monitor) : Prop where
  running : ∀ (i : Nat) node, s.list[i]? = some node → node.iPocessStatus = 1 →
    Alive s.children node node.iPid
  stopped : ∀ (i : Nat) node, s.list[i]? = some node →
    (s.main = .fork i ∨ ∃ iRet, s.main = .setPid i iRet) → node.iPocessStatus ≠ 1
  forked : ∀ (i : Nat) node iRet, s.list[i]? = some node → s.main = .setPid i iRet →
    Alive s.children node iRet
  recorded : ∀ (i : Nat) node, s.list[i]? = some node → s.main = .setStatus i →
    Alive s.children node node.iPid

theorem Alive.append {children : List Child} {node : ChildProcess} {pid : Nat}
    (alive : Alive children node pid) (new : Child) : Alive (children ++ [new]) node pid := by
  obtain ⟨k, child, last, found, same, life⟩ := alive
  have inside : k < children.length := (List.getElem?_eq_some_iff.mp found).1
  exact ⟨k, child, last, by rw [List.getElem?_append_left inside, found], same, life⟩

/-- A child may change its life as long as it is not the node's own child that is reaped. -/
theorem Alive.modify {children : List Child} {node : ChildProcess} {pid k : Nat} {life : Life}
    (alive : Alive children node pid) (own : node.lastForked = some k → life ≠ .reaped) :
    Alive (children.modify k fun c => { c with life := life }) node pid := by
  obtain ⟨j, child, last, found, same, notReaped⟩ := alive
  by_cases here : k = j
  · subst here
    refine ⟨k, { child with life := life }, last, ?_, same, own last⟩
    simp [found]
  · refine ⟨j, child, last, ?_, same, notReaped⟩
    simp [found, here]

/-- Steps that only move the main flow. -/
theorem Kept.moveMain (kept : Kept s) {main : MainPc} {signalPending inHandler : Bool}
    (stopped : ∀ i node, s.list[i]? = some node → main = .fork i → node.iPocessStatus ≠ 1)
    (fork : ∀ i iRet, main = .setPid i iRet → s.main = main)
    (record : ∀ i, main = .setStatus i → s.main = main) :
    Kept ⟨s.list, s.children, main, signalPending, inHandler⟩ where
  running := kept.running
  stopped i node found there := by
    rcases there with there | ⟨iRet, there⟩
    · exact stopped i node found there
    · exact kept.stopped i node found (Or.inr ⟨iRet, (fork i iRet there).trans there⟩)
  forked i node iRet found there := kept.forked i node iRet found ((fork i iRet there).trans there)
  recorded i node found there := kept.recorded i node found ((record i there).trans there)

/-- The loop forks for a node only when its status says that no child runs. -/
theorem Monitor.testStatus_cases (s : Monitor) (i : Nat) :
    s.testStatus i = .sleep ∨ s.testStatus i = .testStatus (i + 1) ∨
      s.testStatus i = .fork i ∧ ∀ node, s.list[i]? = some node → node.iPocessStatus ≠ 1 := by
  unfold Monitor.testStatus
  cases here : s.list[i]? with
  | none => exact Or.inl rfl
  | some node =>
      by_cases running : node.iPocessStatus = 1
      · exact Or.inr (Or.inl (if_pos running))
      · by_cases stopped : node.iPocessStatus = 2 ∨ node.iPocessStatus = 0
        · refine Or.inr (Or.inr ⟨by simp [running, stopped], ?_⟩)
          intro _ same
          cases same
          exact running
        · exact Or.inr (Or.inl (by simp [running, stopped]))

theorem Kept.testStatus (kept : Kept s) (i : Nat) : Kept { s with main := s.testStatus i } := by
  rcases s.testStatus_cases i with tested | tested | ⟨tested, stopped⟩
  · rw [tested]
    exact kept.moveMain nofun nofun nofun
  · rw [tested]
    exact kept.moveMain nofun nofun nofun
  · rw [tested]
    refine kept.moveMain ?_ nofun nofun
    intro j node found there
    cases there
    exact stopped node found

theorem Kept.fork (kept : Kept s) {i pid : Nat} (there : s.main = .fork i) :
    Kept (s.forked i pid) where
  running j node found status := by
    rcases of_getElem?_modify found with ⟨rfl, old, before, rfl⟩ | ⟨-, before⟩
    · exact absurd status (kept.stopped i old before (Or.inl there))
    · exact (kept.running j node before status).append _
  stopped j node found moved := by
    have same : i = j := by
      rcases moved with moved | ⟨iRet, moved⟩
      · cases moved
      · cases moved
        rfl
    subst same
    rcases of_getElem?_modify found with ⟨-, old, before, rfl⟩ | ⟨other, -⟩
    · exact kept.stopped i old before (Or.inl there)
    · exact absurd rfl other
  forked j node iRet found moved := by
    cases moved
    rcases of_getElem?_modify found with ⟨-, old, before, rfl⟩ | ⟨other, -⟩
    · exact ⟨s.children.length, ⟨pid, .running⟩, rfl, by simp [Monitor.forked], rfl, nofun⟩
    · exact absurd rfl other
  recorded j node found moved := by cases moved

theorem Kept.setPid (kept : Kept s) {i iRet : Nat} (there : s.main = .setPid i iRet) :
    Kept { s with
      list := s.list.modify i fun node => { node with iPid := iRet }
      main := .setStatus i } where
  running j node found status := by
    rcases of_getElem?_modify found with ⟨rfl, old, before, rfl⟩ | ⟨-, before⟩
    · exact absurd status (kept.stopped i old before (Or.inr ⟨iRet, there⟩))
    · exact kept.running j node before status
  stopped j node found moved := by
    rcases moved with moved | ⟨_, moved⟩ <;> cases moved
  forked j node _ found moved := by cases moved
  recorded j node found moved := by
    cases moved
    rcases of_getElem?_modify found with ⟨-, old, before, rfl⟩ | ⟨other, -⟩
    · exact kept.forked i old iRet before there
    · exact absurd rfl other

theorem Kept.setStatus (kept : Kept s) {i : Nat} (there : s.main = .setStatus i) :
    Kept { s with
      list := s.list.modify i fun node => { node with iPocessStatus := 1 }
      main := .testStatus (i + 1) } where
  running j node found status := by
    rcases of_getElem?_modify found with ⟨rfl, old, before, rfl⟩ | ⟨-, before⟩
    · exact kept.recorded i old before there
    · exact kept.running j node before status
  stopped j node found moved := by
    rcases moved with moved | ⟨_, moved⟩ <;> cases moved
  forked j node _ found moved := by cases moved
  recorded j node found moved := by cases moved

theorem Kept.childExits (kept : Kept s) (child : Nat) : Kept (s.childExits child) where
  running i node found status := (kept.running i node found status).modify nofun
  stopped := kept.stopped
  forked i node iRet found there := (kept.forked i node iRet found there).modify nofun
  recorded i node found there := (kept.recorded i node found there).modify nofun

/-- A node of the list after the walk of the handler. -/
theorem of_getElem?_mark {list : List ChildProcess} {i pid : Nat} {node : ChildProcess}
    (found : (list.map fun node =>
      if pid = node.iPid then { node with iPocessStatus := 2 } else node)[i]? = some node) :
    ∃ old, list[i]? = some old ∧ node.iPid = old.iPid ∧ node.lastForked = old.lastForked ∧
      (node.iPocessStatus = 1 → old.iPocessStatus = 1 ∧ pid ≠ old.iPid) := by
  rw [List.getElem?_map, Option.map_eq_some_iff] at found
  obtain ⟨old, before, changed⟩ := found
  refine ⟨old, before, ?_⟩
  subst changed
  split
  · simp
  · rename_i other
    exact ⟨rfl, rfl, fun status => ⟨status, other⟩⟩

theorem Alive.congr {children : List Child} {node old : ChildProcess} {pid : Nat}
    (alive : Alive children old pid) (same : node.lastForked = old.lastForked) :
    Alive children node pid := by
  obtain ⟨k, child, last, rest⟩ := alive
  exact ⟨k, child, same.trans last, rest⟩

/-- The handler marks the node of the child that it reaps, unless the node does not name
the child yet. -/
theorem Kept.funcWaitpid (kept : Kept s) {k : Nat} {child : Child}
    (reaped : s.children[k]? = some child) (after : AfterRecording s (.waitpid k)) :
    Kept (s.funcWaitpid k child.pid) where
  running i node found status := by
    obtain ⟨old, before, samePid, sameLast, marked⟩ := of_getElem?_mark found
    obtain ⟨status, other⟩ := marked status
    have alive := kept.running i old before status
    rw [samePid]
    refine (alive.modify fun own => ?_).congr sameLast
    obtain ⟨j, own', last, found, same, -⟩ := alive
    rw [own] at last
    cases last
    rw [reaped] at found
    cases found
    exact absurd same other
  stopped i node found there := by
    obtain ⟨old, before, -, -, marked⟩ := of_getElem?_mark found
    exact fun status => kept.stopped i old before there (marked status).1
  forked i node iRet found there := by
    obtain ⟨old, before, -, sameLast, -⟩ := of_getElem?_mark found
    refine ((kept.forked i old iRet before there).modify fun own => ?_).congr sameLast
    have here : s.main = .setPid i iRet := there
    exact absurd own (after old (by simp [Monitor.recording, here, before]))
  recorded i node found there := by
    obtain ⟨old, before, samePid, sameLast, -⟩ := of_getElem?_mark found
    rw [samePid]
    refine ((kept.recorded i old before there).modify fun own => ?_).congr sameLast
    have here : s.main = .setStatus i := there
    exact absurd own (after old (by simp [Monitor.recording, here, before]))

/-- Every step outside the recording keeps the nodes tied to their children. -/
theorem Kept.step : Preserved Monitor.step AfterRecording Kept := by
  intro s action t kept after taken
  cases Move.of_step taken with
  | beginRound => exact kept.moveMain nofun nofun nofun
  | testStatus i => exact kept.testStatus i
  | forkFails => exact kept.moveMain nofun nofun nofun
  | fork there => exact kept.fork there
  | setPid there => exact kept.setPid there
  | setStatus there => exact kept.setStatus there
  | exit k => exact kept.childExits k
  | signal => exact ⟨kept.running, kept.stopped, kept.forked, kept.recorded⟩
  | waitpid _ found => exact kept.funcWaitpid found after
  | handlerReturns => exact ⟨kept.running, kept.stopped, kept.forked, kept.recorded⟩

theorem kept_start (count : Nat) : Kept (start count) where
  running i node found status := by
    have inside := List.mem_of_getElem? found
    rw [List.eq_of_mem_replicate inside] at status
    cases status
  stopped _ _ _ there := by rcases there with there | ⟨_, there⟩ <;> cases there
  forked _ _ _ _ there := by cases there
  recorded _ _ _ there := by cases there

/-- A child that exited and is not reaped has a handler to come. -/
def Noticed (s : Monitor) : Prop :=
  ∀ child ∈ s.children, child.life = .exited → s.signalPending = true ∨ s.inHandler = true

theorem Noticed.step : Preserved Monitor.step AfterRecording Noticed := by
  intro s action t noticed _ taken
  cases Move.of_step taken with
  | beginRound | testStatus | forkFails | setPid | setStatus => exact noticed
  | fork there =>
      intro child inside exited
      rcases List.mem_append.mp inside with inside | new
      · exact noticed child inside exited
      · rw [List.mem_singleton.mp new] at exited
        cases exited
  | exit k => exact fun _ _ _ => Or.inl rfl
  | signal => exact fun _ _ _ => Or.inr rfl
  | waitpid handling found => exact fun _ _ _ => Or.inr handling
  | handlerReturns none => exact fun child inside exited => absurd exited (none child inside)

/-- A settled monitor has reaped every child that exited. -/
theorem Noticed.not_exited (noticed : Noticed t) (settled : t.Settled) {node : ChildProcess} :
    ¬ t.ChildIs .exited node := by
  rintro ⟨k, child, -, found, life⟩
  rcases noticed child (List.mem_of_getElem? found) life with pending | handling
  · rw [settled.2.1] at pending
    cases pending
  · rw [settled.2.2] at handling
    cases handling

theorem Kept.not_reaped (kept : Kept t) {node : ChildProcess} (inside : node ∈ t.list)
    (status : node.iPocessStatus = 1) : ¬ t.ChildIs .reaped node := by
  rintro ⟨k, child, last, found, life⟩
  obtain ⟨i, place⟩ := List.mem_iff_getElem?.mp inside
  obtain ⟨j, other, last', found', -, alive⟩ := kept.running i node place status
  rw [last] at last'
  cases last'
  rw [found] at found'
  cases found'
  exact alive life

/-- In a run whose handlers reap no child that is still being recorded, every node that is
marked as running when the monitor has settled has a child that runs. -/
theorem no_exit_lost (count : Nat) (actions : List Action) {t : Monitor}
    (outside : Meets Monitor.step AfterRecording (start count) actions)
    (reached : run Monitor.step (start count) actions = some t) (settled : t.Settled) :
    ¬ ∃ node ∈ t.list, node.iPocessStatus = 1 ∧
      (t.ChildIs .reaped node ∨ t.ChildIs .exited node) := by
  rintro ⟨node, inside, status, reaped | exited⟩
  · exact (Kept.step.run (kept_start count) outside reached).not_reaped inside status reaped
  · have noticed := Noticed.step.run (s := start count) nofun outside reached
    exact noticed.not_exited settled exited

/-- A child runs until it is recorded, and the next round restarts it. -/
def restarted : List Action :=
  [.beginRound, .testStatus, .fork 7, .setPid, .setStatus, .testStatus, .exit 0, .signal,
    .waitpid 0, .handlerReturns, .beginRound, .testStatus, .fork 7, .setPid, .setStatus,
    .testStatus]

theorem no_exit_lost_restarted :
    ∃ t, run Monitor.step (start 1) restarted = some t ∧ t.list = [⟨1, 7, some 1⟩] ∧
      ¬ ∃ node ∈ t.list, node.iPocessStatus = 1 ∧
        (t.ChildIs .reaped node ∨ t.ChildIs .exited node) :=
  ⟨_, rfl, rfl, no_exit_lost 1 restarted (by decide) rfl ⟨rfl, rfl, rfl⟩⟩

/-- The handler runs between `fork` and the record of the pid: the node stays marked as
running for good, although its child is gone. -/
theorem not_no_exit_lost :
    ¬ ∀ (count : Nat) (actions : List Action) (t : Monitor),
      run Monitor.step (start count) actions = some t → t.Settled →
        ¬ ∃ node ∈ t.list, node.iPocessStatus = 1 ∧ t.ChildIs .reaped node := by
  intro all
  refine all 1 [.beginRound, .testStatus, .fork 7, .exit 0, .signal, .waitpid 0, .handlerReturns,
    .setPid, .setStatus, .testStatus] _ rfl ⟨rfl, rfl, rfl⟩ ?_
  exact ⟨⟨1, 7, some 0⟩, by decide, rfl, 0, ⟨7, .reaped⟩, rfl, rfl, rfl⟩

end FrameCode.MonitorChildProcess
