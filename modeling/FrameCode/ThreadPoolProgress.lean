import FrameCode.ThreadPoolShutdown
import Mathlib.Algebra.BigOperators.Fin
import Mathlib.Algebra.Order.BigOperators.Group.Finset
import Mathlib.Data.Prod.Lex
import Mathlib.Order.WellFounded

/-!
# The thread pool comes to rest

A finite pool works on its own only for so long: once no producer calls
`Into_Queue` any more and no worker wakes up unasked, every schedule comes to an
end.  It ends with every task done and every worker asleep, or, after the
broadcast of `threadpool_destroy`, with every worker gone.
-/

namespace FrameCode.ThreadPool

open LinkedList

variable {π ω τ : Type}

/-- The steps the pool makes of its own: all but a new call of `Into_Queue` and a
wake-up without a broadcast. -/
inductive InternalStep [DecidableEq π] [DecidableEq ω] : State π ω τ → State π ω τ → Prop
  | producer {s t : State π ω τ} (p : π) (inside : s.producers p ≠ .outside)
      (step : IntoQueue p s t) : InternalStep s t
  | worker {s t : State π ω τ} (w : ω) (awake : s.workers w ≠ .waiting)
      (step : CallDoworkThread w s t) : InternalStep s t

theorem InternalStep.toStep [DecidableEq π] [DecidableEq ω] {s t : State π ω τ}
    (step : InternalStep s t) : Step s t := by
  cases step with
  | producer p inside step => exact .producer p step
  | worker w awake step => exact .worker w step

/-! ## The work that is left -/

/-- The tasks linked into the list and not yet handed out. -/
def State.pending (s : State π ω τ) : List (Nat × τ) :=
  s.inserted.drop s.handed.length

theorem Queue.pending_eq {s : State π ω τ} {items : List (Nat × τ)} (queue : Queue s items) :
    s.pending = items := by
  rw [State.pending, queue.logged]
  exact List.drop_left' (List.length_map _)

/-- The statements of `Into_Queue` a producer has before it, apart from its walk. -/
def ProducerPc.rank : ProducerPc τ → Nat
  | .lock .. => 6
  | .scan .. => 5
  | .walk .. => 4
  | .count => 3
  | .unlock => 2
  | .broadcast => 1
  | .outside | .crashed => 0

/-- The statements of `Call_Dowork_Thread` a worker has before it until it takes a
task or goes to sleep. -/
def WorkerPc.rank : WorkerPc → Nat
  | .unlock _ => 10
  | .work _ => 9
  | .lock | .woken => 8
  | .testSize => 7
  | .testShutdown => 6
  | .checkShutdown => 5
  | .enterWait | .exitUnlock | .take => 4
  | .takeHead => 3
  | .waiting | .exited | .crashed => 0

/-- How far a walking producer is from the end of the list. -/
def ProducerPc.distance (items : List (Nat × τ)) : ProducerPc τ → Nat
  | .walk _ _ member => ((items.map Prod.fst).dropWhile (· ≠ member)).length
  | _ => 0

section Load

variable [Fintype π] [Fintype ω]

/-- The work that is left to a pool.  A broadcast may wake any number of workers, a
task may send a worker through its loop once more, and so the producers come
first and the tasks second. -/
def load (s : State π ω τ) : Nat ×ₗ Nat ×ₗ Nat ×ₗ Nat :=
  toLex (∑ p, (s.producers p).rank, toLex (s.pending.length,
    toLex (∑ p, (s.producers p).distance s.pending, ∑ w, (s.workers w).rank)))

variable {s t : State π ω τ}

theorem load_lt_of_producers
    (less : ∑ p, (t.producers p).rank < ∑ p, (s.producers p).rank) : load t < load s :=
  Prod.Lex.toLex_lt_toLex.mpr (Or.inl less)

theorem load_lt_of_pending (producers : t.producers = s.producers)
    (less : t.pending.length < s.pending.length) : load t < load s := by
  refine Prod.Lex.toLex_lt_toLex.mpr (Or.inr ⟨by rw [producers], ?_⟩)
  exact Prod.Lex.toLex_lt_toLex.mpr (Or.inl less)

theorem load_lt_of_distance
    (producers : ∑ p, (t.producers p).rank = ∑ p, (s.producers p).rank)
    (pending : t.pending = s.pending)
    (less : ∑ p, (t.producers p).distance s.pending < ∑ p, (s.producers p).distance s.pending) :
    load t < load s := by
  refine Prod.Lex.toLex_lt_toLex.mpr (Or.inr ⟨producers, ?_⟩)
  refine Prod.Lex.toLex_lt_toLex.mpr (Or.inr ⟨by rw [pending], ?_⟩)
  exact Prod.Lex.toLex_lt_toLex.mpr (Or.inl (by rw [pending]; exact less))

theorem load_lt_of_workers (producers : t.producers = s.producers)
    (pending : t.pending = s.pending)
    (less : ∑ w, (t.workers w).rank < ∑ w, (s.workers w).rank) : load t < load s := by
  refine Prod.Lex.toLex_lt_toLex.mpr (Or.inr ⟨by rw [producers], ?_⟩)
  refine Prod.Lex.toLex_lt_toLex.mpr (Or.inr ⟨by rw [pending], ?_⟩)
  exact Prod.Lex.toLex_lt_toLex.mpr (Or.inr ⟨by rw [producers, pending], less⟩)

end Load

/-- One thread that comes closer to its end makes the sum over all threads less. -/
theorem sum_update_lt {ι α : Type} [Fintype ι] [DecidableEq ι] (rank : α → Nat) {f : ι → α}
    {i : ι} {value : α} (less : rank value < rank (f i)) :
    ∑ j, rank (Function.update f i value j) < ∑ j, rank (f j) := by
  apply Finset.sum_lt_sum
  · intro j _
    by_cases same : j = i
    · rw [same, Function.update_self]
      exact less.le
    · rw [Function.update_of_ne same]
  · exact ⟨i, Finset.mem_univ i, by rwa [Function.update_self]⟩

theorem sum_update_eq {ι α : Type} [Fintype ι] [DecidableEq ι] (rank : α → Nat) {f : ι → α}
    {i : ι} {value : α} (equal : rank value = rank (f i)) :
    ∑ j, rank (Function.update f i value j) = ∑ j, rank (f j) := by
  refine Finset.sum_congr rfl fun j _ => ?_
  by_cases same : j = i
  · rw [same, Function.update_self, equal]
  · rw [Function.update_of_ne same]

section Steps

variable [DecidableEq π] [DecidableEq ω] [Fintype π] [Fintype ω] {s t : State π ω τ}

omit [DecidableEq ω] in
theorem IntoQueue.load_lt {p : π} (step : IntoQueue p s t) (inside : s.producers p ≠ .outside)
    (sound : Sound s) : load t < load s := by
  cases step with
  | call task here => exact absurd here inside
  | walk here found linked =>
      obtain ⟨items, ordered⟩ := sound.ordered
      have queue := ordered.queue
      have pending : s.pending = items := queue.pending_eq
      refine load_lt_of_distance ?_ rfl ?_
      · exact sum_update_eq _ (by rw [here]; rfl)
      · apply sum_update_lt
        rw [here, pending]
        exact queue.chain.dropWhile_next_lt queue.items_nodup (queue.walking p _ _ _ here) found
          linked
  | lock here | scan here | scanEmpty here | link here | lost here | count here | unlock here
  | broadcast here =>
      exact load_lt_of_producers (sum_update_lt _ (by simp [here, ProducerPc.rank]))

omit [DecidableEq π] in
theorem CallDoworkThread.load_lt {w : ω} (step : CallDoworkThread w s t)
    (awake : s.workers w ≠ .waiting) (sound : Sound s) : load t < load s := by
  cases step with
  | spurious here => exact absurd here awake
  | @takeHead address node here head found =>
      obtain ⟨items, ordered⟩ := sound.ordered
      have queue := ordered.queue
      have logged : s.inserted = s.handed.map Prod.snd ++ items := queue.logged
      have nonempty : 0 < items.length :=
        List.length_pos_of_mem (List.exists_of_mem_map (head ▸ queue.chain).head_mem).choose_spec.1
      refine load_lt_of_pending rfl ?_
      simp only [State.pending, List.length_drop, logged, List.length_append, List.length_map,
        List.length_singleton]
      omega
  | lock here | sizeZero here | sizeNonzero here | keepWaiting here | stopWaiting here
  | enterWait here | relock here | shutdown here | exit here | goOn here | take here
  | nullHead here | unlock here | work here | lost here =>
      exact load_lt_of_workers rfl rfl (sum_update_lt _ (by simp [here, WorkerPc.rank]))

theorem InternalStep.load_lt (step : InternalStep s t) (sound : Sound s) : load t < load s := by
  cases step with
  | producer p inside step => exact step.load_lt inside sound
  | worker w awake step => exact step.load_lt awake sound

/-- Left to itself a pool comes to rest. -/
theorem Sound.no_infinite_run (sound : Sound s) :
    ¬ ∃ run : Nat → State π ω τ, run 0 = s ∧ ∀ n, InternalStep (run n) (run (n + 1)) := by
  rintro ⟨run, start, steps⟩
  have sounds (n : Nat) : Sound (run n) := by
    induction n with
    | zero => exact start ▸ sound
    | succ n ih => exact (steps n).toStep.sound ih
  obtain ⟨n, stuck⟩ := WellFounded.not_rel_apply_succ (r := (· < ·)) fun n => load (run n)
  exact stuck ((steps n).load_lt (sounds n))

end Steps

/-! ## Threads that cannot move -/

/-- Whoever owns the lock is inside a critical section. -/
def Held (lock : Option (Owner π ω)) (producers : π → ProducerPc τ) (workers : ω → WorkerPc) :
    Prop :=
  match lock with
  | none => True
  | some (.producer p) => (producers p).Inside
  | some (.worker w) => (workers w).Inside

section Held

variable {lock : Option (Owner π ω)} {producers : π → ProducerPc τ} {workers : ω → WorkerPc}

theorem Held.stepProducer [DecidableEq π] {p : π} {pc : ProducerPc τ}
    (kept : (producers p).Inside → pc.Inside) (held : Held lock producers workers) :
    Held lock (Function.update producers p pc) workers := by
  cases lock with
  | none => trivial
  | some owner =>
      cases owner with
      | worker w => exact held
      | producer q =>
          by_cases same : q = p
          · subst same
            simp only [Held, Function.update_self]
            exact kept held
          · simpa only [Held, Function.update_of_ne same] using held

theorem Held.stepWorker [DecidableEq ω] {w : ω} {pc : WorkerPc}
    (kept : (workers w).Inside → pc.Inside) (held : Held lock producers workers) :
    Held lock producers (Function.update workers w pc) := by
  cases lock with
  | none => trivial
  | some owner =>
      cases owner with
      | producer p => exact held
      | worker v =>
          by_cases same : v = w
          · subst same
            simp only [Held, Function.update_self]
            exact kept held
          · simpa only [Held, Function.update_of_ne same] using held

theorem Held.wake (held : Held lock producers workers) :
    Held lock producers (wake workers) := by
  cases lock with
  | none => trivial
  | some owner =>
      cases owner with
      | producer p => exact held
      | worker w =>
          simp only [Held, ThreadPool.wake] at held ⊢
          cases here : workers w <;> simp_all [WorkerPc.Inside]

end Held

/-- The lock is held by a thread that will give it back, and only a shutdown sends
workers away. -/
structure Lively (s : State π ω τ) : Prop where
  held : Held s.queueLock s.producers s.workers
  leaving : ∀ w, s.workers w = .exitUnlock ∨ s.workers w = .exited → s.shutdown = true

section Moves

variable [DecidableEq π] [DecidableEq ω] {s t : State π ω τ}

omit [DecidableEq π] [DecidableEq ω] in
theorem lively_init : Lively (threadPoolInit : State π ω τ) :=
  ⟨trivial, fun _ there => there.elim nofun nofun⟩

omit [DecidableEq ω] in
theorem IntoQueue.lively {p : π} (step : IntoQueue p s t) (after : Sound t)
    (lively : Lively s) : Lively t := by
  cases step with
  | call task here =>
      exact ⟨lively.held.stepProducer (by rw [here]; exact False.elim), lively.leaving⟩
  | lock here free => exact ⟨by simp [Held, ProducerPc.Inside], lively.leaving⟩
  | scan here | scanEmpty here | walk here | link here | count here =>
      exact ⟨lively.held.stepProducer fun _ => trivial, lively.leaving⟩
  | lost here missing => exact absurd (Function.update_self ..) (after.producer_ne_crashed p)
  | unlock here => exact ⟨trivial, lively.leaving⟩
  | broadcast here =>
      refine ⟨lively.held.wake.stepProducer (by rw [here]; exact False.elim), fun w there => ?_⟩
      exact lively.leaving w (there.imp (of_wake · nofun) (of_wake · nofun))

omit [DecidableEq π] in
/-- A worker that is not on its way out. -/
theorem Lively.stepWorker {w : ω} {pc : WorkerPc} (lively : Lively s) (stays : pc ≠ .exitUnlock)
    (inside : pc ≠ .exited) (v : ω)
    (there : Function.update s.workers w pc v = .exitUnlock ∨
      Function.update s.workers w pc v = .exited) : s.shutdown = true :=
  lively.leaving v (of_update_or there stays inside)

omit [DecidableEq π] in
theorem CallDoworkThread.lively {w : ω} (step : CallDoworkThread w s t) (after : Sound t)
    (lively : Lively s) : Lively t := by
  cases step with
  | lock here free | relock here free =>
      exact ⟨by simp [Held, WorkerPc.Inside], lively.stepWorker (by simp) (by simp)⟩
  | sizeZero here | sizeNonzero here | keepWaiting here | stopWaiting here | goOn here
  | take here | takeHead here =>
      exact ⟨lively.held.stepWorker fun _ => trivial, lively.stepWorker (by simp) (by simp)⟩
  | enterWait here | unlock here => exact ⟨trivial, lively.stepWorker (by simp) (by simp)⟩
  | spurious here | work here =>
      exact ⟨lively.held.stepWorker (by rw [here]; exact False.elim),
        lively.stepWorker (by simp) (by simp)⟩
  | shutdown here stopped => exact ⟨lively.held.stepWorker fun _ => trivial, fun _ _ => stopped⟩
  | exit here => exact ⟨trivial, fun _ _ => lively.leaving w (Or.inl here)⟩
  | nullHead here missing => exact absurd (Function.update_self ..) (after.worker_ne_crashed w)
  | lost here missing => exact absurd (Function.update_self ..) (after.worker_ne_crashed w)

omit [DecidableEq π] [DecidableEq ω] in
theorem ThreadpoolDestroy.lively (step : ThreadpoolDestroy s t) (lively : Lively s) :
    Lively t := by
  cases step with
  | refuse here stopped => exact ⟨lively.held, lively.leaving⟩
  | shutdown here running => exact ⟨lively.held, fun _ _ => rfl⟩
  | broadcast here =>
      exact ⟨lively.held.wake, fun w there =>
        lively.leaving w (there.imp (of_wake · nofun) (of_wake · nofun))⟩

theorem Step.lively (step : Step s t) (sound : Sound s) (lively : Lively s) : Lively t := by
  have after := step.sound sound
  cases step with
  | producer p step => exact step.lively after lively
  | worker w step => exact step.lively after lively

theorem PoolStep.lively (step : PoolStep s t) (sound : Sound s) (lively : Lively s) :
    Lively t := by
  cases step with
  | thread step => exact step.lively sound lively
  | destroy step => exact step.lively lively

omit [DecidableEq ω] in
/-- A producer in `Into_Queue` can only be stopped by the lock. -/
theorem exists_intoQueue {p : π} (inside : s.producers p ≠ .outside)
    (sound : s.producers p ≠ .crashed)
    (free : ∀ node task, s.producers p = .lock node task → s.queueLock = none) :
    ∃ t, IntoQueue p s t := by
  cases here : s.producers p with
  | outside => exact absurd here inside
  | crashed => exact absurd here sound
  | lock node task => exact ⟨_, .lock here (free node task here)⟩
  | scan node task =>
      cases head : s.queueHead with
      | none => exact ⟨_, .scanEmpty here head⟩
      | some member => exact ⟨_, .scan here head⟩
  | walk node task member =>
      cases found : s.nodes member with
      | none => exact ⟨_, .lost here found⟩
      | some current =>
          cases linked : current.next with
          | none => exact ⟨_, .link here found linked⟩
          | some next => exact ⟨_, .walk here found linked⟩
  | count => exact ⟨_, .count here⟩
  | unlock => exact ⟨_, .unlock here⟩
  | broadcast => exact ⟨_, .broadcast here⟩

omit [DecidableEq π] in
/-- A worker can only be stopped by the lock, asleep or gone. -/
theorem exists_callDoworkThread {w : ω} (awake : s.workers w ≠ .waiting)
    (stays : s.workers w ≠ .exited) (sound : s.workers w ≠ .crashed)
    (free : s.workers w = .lock ∨ s.workers w = .woken → s.queueLock = none) :
    ∃ t, CallDoworkThread w s t := by
  cases here : s.workers w with
  | waiting => exact absurd here awake
  | exited => exact absurd here stays
  | crashed => exact absurd here sound
  | lock => exact ⟨_, .lock here (free (Or.inl here))⟩
  | woken => exact ⟨_, .relock here (free (Or.inr here))⟩
  | testSize =>
      by_cases zero : s.curQueueSize = 0
      · exact ⟨_, .sizeZero here zero⟩
      · exact ⟨_, .sizeNonzero here zero⟩
  | testShutdown =>
      cases stopped : s.shutdown with
      | false => exact ⟨_, .keepWaiting here stopped⟩
      | true => exact ⟨_, .stopWaiting here stopped⟩
  | enterWait => exact ⟨_, .enterWait here⟩
  | checkShutdown =>
      cases stopped : s.shutdown with
      | false => exact ⟨_, .goOn here stopped⟩
      | true => exact ⟨_, .shutdown here stopped⟩
  | exitUnlock => exact ⟨_, .exit here⟩
  | take => exact ⟨_, .take here⟩
  | takeHead =>
      by_cases there : ∃ address node, s.queueHead = some address ∧ s.nodes address = some node
      · obtain ⟨address, node, head, found⟩ := there
        exact ⟨_, .takeHead here head found⟩
      · exact ⟨_, .nullHead here fun address node head found =>
          there ⟨address, node, head, found⟩⟩
  | unlock node => exact ⟨_, .unlock here⟩
  | work address =>
      cases found : s.nodes address with
      | none => exact ⟨_, .lost here found⟩
      | some node => exact ⟨_, .work here found⟩

/-- In a pool in which no thread moves of its own, the lock is free, no producer is
in `Into_Queue`, and every worker is asleep or gone. -/
theorem Lively.at_rest (lively : Lively s) (sound : Sound s)
    (stuck : ∀ t, ¬ InternalStep s t) :
    s.queueLock = none ∧ (∀ p, s.producers p = .outside) ∧
      ∀ w, s.workers w = .waiting ∨ s.workers w = .exited := by
  have stuckProducer {p : π} (inside : s.producers p ≠ .outside)
      (free : ∀ node task, s.producers p = .lock node task → s.queueLock = none) : False := by
    obtain ⟨t, step⟩ := exists_intoQueue inside (sound.producer_ne_crashed p) free
    exact stuck t (.producer p inside step)
  have stuckWorker {w : ω} (awake : s.workers w ≠ .waiting) (stays : s.workers w ≠ .exited)
      (free : s.workers w = .lock ∨ s.workers w = .woken → s.queueLock = none) : False := by
    obtain ⟨t, step⟩ := exists_callDoworkThread awake stays (sound.worker_ne_crashed w) free
    exact stuck t (.worker w awake step)
  have free : s.queueLock = none := by
    have held := lively.held
    cases lock : s.queueLock with
    | none => rfl
    | some owner =>
        rw [lock] at held
        cases owner with
        | producer p =>
            refine (stuckProducer (p := p) ?_ ?_).elim
            all_goals
              cases here : s.producers p <;> simp_all [Held, ProducerPc.Inside]
        | worker w =>
            refine (stuckWorker (w := w) ?_ ?_ ?_).elim
            all_goals
              cases here : s.workers w <;> simp_all [Held, WorkerPc.Inside]
  refine ⟨free, fun p => ?_, fun w => ?_⟩
  · by_contra inside
    exact stuckProducer inside fun _ _ _ => free
  · by_contra other
    rw [not_or] at other
    exact stuckWorker other.1 other.2 fun _ => free

end Moves

/-! ## The pool at rest -/

section Rest

variable [DecidableEq π] [DecidableEq ω] {s : State π ω τ}

theorem Reachable.sound (reached : Reachable s) : Sound s := by
  induction reached with
  | init => exact sound_init
  | step before step ih => exact step.sound ih

theorem Reachable.lively (reached : Reachable s) : Lively s := by
  induction reached with
  | init => exact lively_init
  | step before step ih => exact step.lively before.sound ih

theorem PoolReachable.sound {guard : State π ω τ → Prop} (reached : PoolReachable guard s) :
    Sound s := by
  induction reached with
  | init => exact sound_init
  | step before step allowed ih => exact step.sound ih

theorem PoolReachable.lively {guard : State π ω τ → Prop} (reached : PoolReachable guard s) :
    Lively s := by
  induction reached with
  | init => exact lively_init
  | step before step allowed ih => exact step.lively before.sound ih

/-- In a pool of finitely many threads that nobody destroys, once no producer calls
`Into_Queue` any more and no worker wakes up unasked, every schedule ends, and it
ends with every worker asleep, every task done and its node freed. -/
theorem reachable_comes_to_rest [Finite π] [Finite ω] [Nonempty ω] (reached : Reachable s) :
    (¬ ∃ run : Nat → State π ω τ, run 0 = s ∧ ∀ n, InternalStep (run n) (run (n + 1))) ∧
    ((∀ t, ¬ InternalStep s t) →
      s.queueLock = none ∧ s.queueHead = none ∧ s.curQueueSize = 0 ∧
        (∀ w, s.workers w = .waiting) ∧ s.acquired = s.handed.map Prod.snd ∧
        ∀ address, s.nodes address = none) := by
  have := Fintype.ofFinite π
  have := Fintype.ofFinite ω
  refine ⟨reached.sound.no_infinite_run, fun stuck => ?_⟩
  obtain ⟨free, outside, idle⟩ := reached.lively.at_rest reached.sound stuck
  have running := reached.queue.2.1
  have waiting (w : ω) : s.workers w = .waiting := by
    refine (idle w).resolve_right fun exited => ?_
    rw [reached.lively.leaving w (Or.inr exited)] at running
    cases running
  obtain ⟨items, queue, acquired, owned⟩ := reached.sound.owned outside fun w address => by
    rw [waiting w]
    exact ⟨nofun, nofun⟩
  have size_eq : s.curQueueSize = items.length := by
    have size_eq : s.curQueueSize + owed s.queueLock s.producers s.settled.workers =
        items.length := queue.size_eq
    rw [free] at size_eq
    simpa [owed] using size_eq
  -- Nobody is left to broadcast, so the workers do not sleep on a task.
  have empty : items = [] := by
    obtain ⟨w⟩ := ‹Nonempty ω›
    by_contra nonempty
    have positive : 0 < s.curQueueSize := by
      rw [size_eq]
      exact Int.natCast_pos.mpr (List.length_pos_of_ne_nil nonempty)
    obtain ⟨p, appended⟩ := reached.wakeful.2.asleep w (waiting w) positive
    rw [outside p] at appended
    exact appended
  subst empty
  refine ⟨free, ?_, size_eq, waiting, ?_, fun address => ?_⟩
  · have chain : Chain s.nodes s.queueHead [] := queue.chain
    cases head : s.queueHead with
    | none => rfl
    | some address =>
        rw [head] at chain
        cases chain
  · have logged : s.inserted = s.handed.map Prod.snd ++ [] := queue.logged
    rw [acquired, logged, List.append_nil]
  · cases found : s.nodes address with
    | none => rfl
    | some node => cases owned address node found

/-- A producer hands one task to the only worker, which does it and goes to sleep. -/
theorem reachable_comes_to_rest_done : ∃ s : State Unit Unit Nat,
    s.acquired = [(0, 7)] ∧ s.handed = [((), 0, 7)] ∧ s.workers () = .waiting ∧
      ∀ address, s.nodes address = none := by
  have start : Reachable (threadPoolInit : State Unit Unit Nat) := .init
  have called := start.step (.producer () (.call 7 rfl))
  have locked := called.step (.producer () (.lock rfl rfl))
  have linked := locked.step (.producer () (.scanEmpty rfl rfl))
  have counted := linked.step (.producer () (.count rfl))
  have unlocked := counted.step (.producer () (.unlock rfl))
  have broadcast := unlocked.step (.producer () (.broadcast rfl))
  have entered := broadcast.step (.worker () (.lock rfl rfl))
  have tested := entered.step (.worker () (.sizeNonzero rfl (by decide)))
  have checked := tested.step (.worker () (.goOn rfl rfl))
  have uncounted := checked.step (.worker () (.take rfl))
  have taken := uncounted.step (.worker () (.takeHead rfl rfl rfl))
  have released := taken.step (.worker () (.unlock rfl))
  have done := released.step (.worker () (.work rfl rfl))
  have again := done.step (.worker () (.lock rfl rfl))
  have empty := again.step (.worker () (.sizeZero rfl rfl))
  have waits := empty.step (.worker () (.keepWaiting rfl rfl))
  have asleep := waits.step (.worker () (.enterWait rfl))
  refine ⟨_, rfl, rfl, rfl, ((reachable_comes_to_rest asleep).2 ?_).2.2.2.2.2⟩
  rintro t (⟨p, inside, -⟩ | ⟨w, awake, -⟩)
  · exact inside rfl
  · exact awake rfl

/-- Once `threadpool_destroy` has broadcast while no worker was about to sleep, every
schedule without new calls and unasked wake-ups ends, and it ends with every worker
gone, so that the joins of the workers return. -/
theorem shutdown_comes_to_rest [Finite π] [Finite ω] (reached : PoolReachable NoneEntering s)
    (joining : s.destroyer = .join) :
    (¬ ∃ run : Nat → State π ω τ, run 0 = s ∧ ∀ n, InternalStep (run n) (run (n + 1))) ∧
    ((∀ t, ¬ InternalStep s t) → s.queueLock = none ∧ (∀ p, s.producers p = .outside) ∧
      ∀ w, s.workers w = .exited) := by
  have := Fintype.ofFinite π
  have := Fintype.ofFinite ω
  refine ⟨reached.sound.no_infinite_run, fun stuck => ?_⟩
  obtain ⟨free, outside, idle⟩ := reached.lively.at_rest reached.sound stuck
  exact ⟨free, outside, fun w => (idle w).resolve_left (reached.released.waiting joining w)⟩

/-- The only worker is asleep when the pool is destroyed. -/
theorem shutdown_comes_to_rest_sleeper : ∃ s : State Unit Unit Nat,
    s.destroyer = .join ∧ s.workers () = .woken ∧
      ¬ ∃ run : Nat → State Unit Unit Nat, run 0 = s ∧ ∀ n, InternalStep (run n) (run (n + 1)) := by
  have start : PoolReachable NoneEntering (threadPoolInit : State Unit Unit Nat) := .init
  have locked := start.step (.thread (.worker () (.lock rfl rfl))) nofun
  have empty := locked.step (.thread (.worker () (.sizeZero rfl rfl))) nofun
  have tested := empty.step (.thread (.worker () (.keepWaiting rfl rfl))) nofun
  have asleep := tested.step (.thread (.worker () (.enterWait rfl))) nofun
  have flagged := asleep.step (.destroy (.shutdown rfl rfl)) nofun
  have broadcast := flagged.step (.destroy (.broadcast rfl)) fun _ _ _ => nofun
  exact ⟨_, rfl, rfl, (shutdown_comes_to_rest broadcast rfl).1⟩

end Rest

end FrameCode.ThreadPool
