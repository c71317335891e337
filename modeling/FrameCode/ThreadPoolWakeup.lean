import FrameCode.ThreadPoolQueue

/-!
# Waking the workers of the thread pool

`Into_Queue` and `threadpool_destroy` both broadcast on `queue_ready_F` without
holding the lock.  A producer changes the size under the lock, so no worker sleeps
on a task whose producer has already broadcast.  The main thread sets
`shutdown_F` without the lock, and a worker that has tested the flag but does not
wait yet misses the broadcast.
-/

namespace FrameCode.ThreadPool

variable {π ω τ : Type}

/-! ## Tasks and sleeping workers -/

/-- The statements of `Into_Queue` between linking the task and the broadcast. -/
def ProducerPc.Appended : ProducerPc τ → Prop
  | .count | .unlock | .broadcast => True
  | _ => False

/-- Workers sleep on a nonempty queue only while a producer is about to
broadcast, and only go to sleep on an empty queue. -/
structure Wakeful (size : Int) (producers : π → ProducerPc τ) (workers : ω → WorkerPc) :
    Prop where
  asleep : ∀ w, workers w = .waiting → 0 < size → ∃ p, (producers p).Appended
  entering : ∀ w, workers w = .testShutdown ∨ workers w = .enterWait → size = 0

namespace Wakeful

variable {size : Int} {producers : π → ProducerPc τ} {workers : ω → WorkerPc}

theorem stepProducer [DecidableEq π] {p : π} {pc : ProducerPc τ}
    (kept : (producers p).Appended → pc.Appended) (wakeful : Wakeful size producers workers) :
    Wakeful size (Function.update producers p pc) workers where
  asleep w waiting positive := by
    obtain ⟨q, appended⟩ := wakeful.asleep w waiting positive
    refine ⟨q, ?_⟩
    by_cases same : q = p
    · subst same
      rw [Function.update_self]
      exact kept appended
    · rwa [Function.update_of_ne same]
  entering := wakeful.entering

theorem wake (wakeful : Wakeful size producers workers) (others : π → ProducerPc τ) :
    Wakeful size others (wake workers) where
  asleep w waiting positive := by
    unfold ThreadPool.wake at waiting
    cases here : workers w <;> simp [here] at waiting
  entering w there := by
    apply wakeful.entering w
    rcases there with there | there
    · exact Or.inl (of_wake there nofun)
    · exact Or.inr (of_wake there nofun)

theorem stepWorker [DecidableEq ω] {w : ω} {pc : WorkerPc} (awake : pc = .waiting → size = 0)
    (zero : pc = .testShutdown ∨ pc = .enterWait → size = 0)
    (wakeful : Wakeful size producers workers) :
    Wakeful size producers (Function.update workers w pc) where
  asleep v waiting positive := by
    by_cases same : v = w
    · rw [same, Function.update_self] at waiting
      rw [awake waiting] at positive
      exact absurd positive (Int.lt_irrefl 0)
    · rw [Function.update_of_ne same] at waiting
      exact wakeful.asleep v waiting positive
  entering v there := by
    by_cases same : v = w
    · rw [same, Function.update_self] at there
      exact zero there
    · rw [Function.update_of_ne same] at there
      exact wakeful.entering v there

end Wakeful

def State.Wakeful (s : State π ω τ) : Prop :=
  ThreadPool.Wakeful s.curQueueSize s.producers s.workers

section Steps

variable [DecidableEq π] [DecidableEq ω] {s t : State π ω τ}

omit [DecidableEq ω] in
/-- Under the lock of a producer, no worker is about to sleep. -/
theorem IntoQueue.wakeful_count {p : π} (here : s.producers p = .count) (exclusive : s.Exclusive) :
    Wakeful (s.curQueueSize + 1) (Function.update s.producers p .unlock) s.workers where
  asleep _ _ _ := ⟨p, by rw [Function.update_self]; trivial⟩
  entering w there := by
    have lock := exclusive.producer p (by rw [here]; trivial)
    have owner := exclusive.worker w (by rcases there with pc | pc <;> rw [pc] <;> trivial)
    rw [lock] at owner
    cases owner

omit [DecidableEq ω] in
theorem IntoQueue.wakeful {p : π} (step : IntoQueue p s t) (exclusive : s.Exclusive)
    (wakeful : s.Wakeful) : t.Wakeful := by
  cases step with
  | call task here => exact wakeful.stepProducer (by rw [here]; exact False.elim)
  | lock here free => exact wakeful.stepProducer (by rw [here]; exact False.elim)
  | scan here head => exact wakeful.stepProducer (by rw [here]; exact False.elim)
  | scanEmpty here head => exact wakeful.stepProducer fun _ => trivial
  | walk here found linked => exact wakeful.stepProducer (by rw [here]; exact False.elim)
  | link here found isLast => exact wakeful.stepProducer fun _ => trivial
  | lost here missing => exact wakeful.stepProducer (by rw [here]; exact False.elim)
  | count here => exact IntoQueue.wakeful_count here exclusive
  | unlock here => exact wakeful.stepProducer fun _ => trivial
  | broadcast here => exact wakeful.wake _

omit [DecidableEq π] in
/-- Under the lock of a worker, no other worker is about to sleep. -/
theorem CallDoworkThread.wakeful_take {w : ω} (here : s.workers w = .take)
    (exclusive : s.Exclusive) (wakeful : s.Wakeful) :
    Wakeful (s.curQueueSize - 1) s.producers (Function.update s.workers w .takeHead) where
  asleep v waiting positive :=
    wakeful.asleep v (of_update waiting nofun) (by omega)
  entering v there := by
    have before := of_update_or there nofun nofun
    have lock := exclusive.worker w (by rw [here]; trivial)
    have owner := exclusive.worker v (by rcases before with pc | pc <;> rw [pc] <;> trivial)
    rw [lock] at owner
    cases owner
    rw [here] at before
    rcases before with pc | pc <;> cases pc

omit [DecidableEq π] in
theorem CallDoworkThread.wakeful {w : ω} (step : CallDoworkThread w s t)
    (exclusive : s.Exclusive) (wakeful : s.Wakeful) : t.Wakeful := by
  cases step with
  | lock here free => exact wakeful.stepWorker nofun nofun
  | sizeZero here zero => exact wakeful.stepWorker nofun fun _ => zero
  | sizeNonzero here nonzero => exact wakeful.stepWorker nofun nofun
  | keepWaiting here running =>
      exact wakeful.stepWorker nofun fun _ => wakeful.entering w (Or.inl here)
  | stopWaiting here stopped => exact wakeful.stepWorker nofun nofun
  | enterWait here =>
      exact wakeful.stepWorker (fun _ => wakeful.entering w (Or.inr here)) nofun
  | spurious here => exact wakeful.stepWorker nofun nofun
  | relock here free => exact wakeful.stepWorker nofun nofun
  | shutdown here stopped => exact wakeful.stepWorker nofun nofun
  | exit here => exact wakeful.stepWorker nofun nofun
  | goOn here running => exact wakeful.stepWorker nofun nofun
  | take here => exact CallDoworkThread.wakeful_take here exclusive wakeful
  | takeHead here head found => exact wakeful.stepWorker nofun nofun
  | nullHead here missing => exact wakeful.stepWorker nofun nofun
  | unlock here => exact wakeful.stepWorker nofun nofun
  | work here found => exact wakeful.stepWorker nofun nofun
  | lost here missing => exact wakeful.stepWorker nofun nofun

theorem Reachable.wakeful (reached : Reachable s) : s.Exclusive ∧ s.Wakeful := by
  induction reached with
  | init => exact ⟨exclusive_init, ⟨nofun, fun _ there => there.elim nofun nofun⟩⟩
  | step before step ih =>
      obtain ⟨exclusive, wakeful⟩ := ih
      refine ⟨step.exclusive exclusive, ?_⟩
      cases step with
      | producer p step => exact step.wakeful exclusive wakeful
      | worker w step => exact step.wakeful exclusive wakeful

/-- A worker sleeps on a nonempty queue only while a producer that has appended
its task has not broadcast yet. -/
theorem exists_pending_broadcast {w : ω} (reached : Reachable s)
    (waiting : s.workers w = .waiting) (positive : 0 < s.curQueueSize) :
    ∃ p, s.producers p = .count ∨ s.producers p = .unlock ∨ s.producers p = .broadcast := by
  obtain ⟨p, appended⟩ := reached.wakeful.2.asleep w waiting positive
  refine ⟨p, ?_⟩
  cases pc : s.producers p with
  | count => exact Or.inl rfl
  | unlock => exact Or.inr (Or.inl rfl)
  | broadcast => exact Or.inr (Or.inr rfl)
  | outside | lock | scan | walk | crashed =>
      rw [pc] at appended
      exact appended.elim

/-- The worker goes to sleep first, and the producer stops before its broadcast. -/
theorem exists_pending_broadcast_sleeper : ∃ s : State Unit Unit Nat,
    s.workers () = .waiting ∧ 0 < s.curQueueSize ∧
      ∃ p, s.producers p = .count ∨ s.producers p = .unlock ∨ s.producers p = .broadcast := by
  have start : Reachable (threadPoolInit : State Unit Unit Nat) := .init
  have locked := start.step (.worker () (.lock rfl rfl))
  have empty := locked.step (.worker () (.sizeZero rfl rfl))
  have tested := empty.step (.worker () (.keepWaiting rfl rfl))
  have asleep := tested.step (.worker () (.enterWait rfl))
  have called := asleep.step (.producer () (.call 7 rfl))
  have producerLocked := called.step (.producer () (.lock rfl rfl))
  have linked := producerLocked.step (.producer () (.scanEmpty rfl rfl))
  have counted := linked.step (.producer () (.count rfl))
  have unlocked := counted.step (.producer () (.unlock rfl))
  exact ⟨_, rfl, by decide, exists_pending_broadcast (w := ()) unlocked rfl (by decide)⟩

end Steps

/-! ## Shutdown -/

section Shutdown

variable [DecidableEq π] [DecidableEq ω]

/-- The states of the pool in the runs in which `threadpool_destroy` broadcasts
only where `guard` holds. -/
inductive PoolReachable (guard : State π ω τ → Prop) : State π ω τ → Prop
  | init : PoolReachable guard threadPoolInit
  | step {s t : State π ω τ} (before : PoolReachable guard s) (step : PoolStep s t)
      (allowed : s.destroyer = .broadcast → t.destroyer = .join → guard s) :
      PoolReachable guard t

/-- No worker stands between its test of `shutdown_F` and `pthread_cond_wait`. -/
def NoneEntering (s : State π ω τ) : Prop :=
  ∀ w, s.workers w ≠ .enterWait

/-- What holds from the broadcast of `threadpool_destroy` on. -/
structure Released (s : State π ω τ) : Prop where
  shutdown : s.destroyer ≠ .ready → s.shutdown = true
  entering : s.destroyer = .join → ∀ w, s.workers w ≠ .enterWait
  waiting : s.destroyer = .join → ∀ w, s.workers w ≠ .waiting

variable {s t : State π ω τ}

omit [DecidableEq π] [DecidableEq ω] in
theorem wake_ne_waiting (workers : ω → WorkerPc) (w : ω) : wake workers w ≠ .waiting := by
  unfold wake
  cases workers w <;> nofun

omit [DecidableEq ω] in
theorem IntoQueue.released {p : π} (step : IntoQueue p s t) (released : Released s) :
    Released t := by
  cases step with
  | broadcast here =>
      exact ⟨released.shutdown,
        fun joined w there => released.entering joined w (of_wake there nofun),
        fun joined w => wake_ne_waiting _ w⟩
  | call | lock | scan | scanEmpty | walk | link | lost | count | unlock =>
      exact ⟨released.shutdown, released.entering, released.waiting⟩

omit [DecidableEq π] in
/-- A worker that moves neither to the wait nor right before it. -/
theorem Released.stepWorker {w : ω} {pc : WorkerPc} {workers : ω → WorkerPc}
    (released : Released s) (shutdown : t.shutdown = s.shutdown)
    (destroyer : t.destroyer = s.destroyer) (before : s.workers = workers)
    (after : t.workers = Function.update workers w pc)
    (allowed : s.destroyer = .join → pc ≠ .enterWait ∧ pc ≠ .waiting) : Released t := by
  subst before
  refine ⟨?_, ?_, ?_⟩
  · intro called
    rw [shutdown]
    exact released.shutdown (destroyer ▸ called)
  · intro joined v there
    rw [destroyer] at joined
    rw [after] at there
    exact released.entering joined v (of_update there (allowed joined).1)
  · intro joined v there
    rw [destroyer] at joined
    rw [after] at there
    exact released.waiting joined v (of_update there (allowed joined).2)

omit [DecidableEq π] in
theorem CallDoworkThread.released {w : ω} (step : CallDoworkThread w s t)
    (released : Released s) : Released t := by
  cases step with
  | keepWaiting here running =>
      refine released.stepWorker rfl rfl rfl rfl fun joined => ?_
      rw [released.shutdown (by rw [joined]; nofun)] at running
      cases running
  | enterWait here =>
      exact released.stepWorker rfl rfl rfl rfl fun joined =>
        absurd here (released.entering joined w)
  | lock | sizeZero | sizeNonzero | stopWaiting | spurious | relock | shutdown | exit | goOn
  | take | takeHead | nullHead | unlock | work | lost =>
      exact released.stepWorker rfl rfl rfl rfl fun _ => ⟨nofun, nofun⟩

omit [DecidableEq π] [DecidableEq ω] in
theorem ThreadpoolDestroy.released (step : ThreadpoolDestroy s t) (released : Released s)
    (allowed : s.destroyer = .broadcast → t.destroyer = .join → NoneEntering s) :
    Released t := by
  cases step with
  | refuse here stopped => exact ⟨fun _ => stopped, nofun, nofun⟩
  | shutdown here running => exact ⟨fun _ => rfl, nofun, nofun⟩
  | broadcast here =>
      have none := allowed here rfl
      exact ⟨fun _ => released.shutdown (by rw [here]; nofun),
        fun _ w there => none w (of_wake there nofun), fun _ w => wake_ne_waiting _ w⟩

theorem PoolReachable.released (reached : PoolReachable NoneEntering s) : Released s := by
  induction reached with
  | init => exact ⟨fun called => absurd rfl called, nofun, nofun⟩
  | step before step allowed ih =>
      cases step with
      | thread step =>
          cases step with
          | producer p step => exact step.released ih
          | worker w step => exact step.released ih
      | destroy step => exact step.released ih allowed

/-- Shutdown wakes everyone in the runs in which no worker is between its test of
the flag and its wait when `threadpool_destroy` broadcasts; from any other
broadcast some worker goes to sleep. -/
theorem destroy_wakes_noneEntering :
    (∀ s : State π ω τ, PoolReachable NoneEntering s → s.destroyer = .join →
      ∀ w, s.workers w ≠ .waiting) ∧
    ∀ s : State π ω τ, PoolReachable (fun _ => True) s → s.destroyer = .broadcast →
      ¬ NoneEntering s →
      ∃ t u, ThreadpoolDestroy s t ∧ PoolStep t u ∧ PoolReachable (fun _ => True) u ∧
        u.destroyer = .join ∧ ∃ w, u.workers w = .waiting := by
  refine ⟨fun s reached => reached.released.waiting, ?_⟩
  intro s reached here entering
  obtain ⟨w, there⟩ : ∃ w, s.workers w = .enterWait := by
    simpa [NoneEntering] using entering
  have broadcast := ThreadpoolDestroy.broadcast here
  have stays : wake s.workers w = .enterWait := by simp [wake, there]
  have sleep : PoolStep { s with workers := wake s.workers, destroyer := .join } _ :=
    .thread (.worker w (.enterWait stays))
  refine ⟨_, _, broadcast, sleep, ?_, rfl, w, Function.update_self ..⟩
  exact (reached.step (.destroy broadcast) fun _ _ => trivial).step sleep fun _ _ => trivial

/-- The worker sleeps before the flag is set, and the broadcast wakes it. -/
theorem destroy_wakes_noneEntering_sleeper : ∃ s : State Unit Unit Nat,
    s.destroyer = .join ∧ s.workers () = .woken ∧ ∀ w, s.workers w ≠ .waiting := by
  have start : PoolReachable NoneEntering (threadPoolInit : State Unit Unit Nat) := .init
  have locked := start.step (.thread (.worker () (.lock rfl rfl))) nofun
  have empty := locked.step (.thread (.worker () (.sizeZero rfl rfl))) nofun
  have tested := empty.step (.thread (.worker () (.keepWaiting rfl rfl))) nofun
  have asleep := tested.step (.thread (.worker () (.enterWait rfl))) nofun
  have flagged := asleep.step (.destroy (.shutdown rfl rfl)) nofun
  have broadcast := flagged.step (.destroy (.broadcast rfl)) fun _ _ _ => nofun
  exact ⟨_, rfl, rfl, destroy_wakes_noneEntering.1 _ broadcast rfl⟩

/-- The only worker tests the flag right before `threadpool_destroy` sets it, and
waits right after the broadcast. -/
theorem destroy_leaves_sleeper : ¬ ∀ s : State Unit Unit Nat, PoolReachable (fun _ => True) s →
    s.destroyer = .join → ∀ w, s.workers w ≠ .waiting := by
  intro wakes
  have start : PoolReachable (fun _ => True) (threadPoolInit : State Unit Unit Nat) := .init
  have locked := start.step (.thread (.worker () (.lock rfl rfl))) nofun
  have empty := locked.step (.thread (.worker () (.sizeZero rfl rfl))) nofun
  have tested := empty.step (.thread (.worker () (.keepWaiting rfl rfl))) nofun
  have flagged := tested.step (.destroy (.shutdown rfl rfl)) nofun
  have broadcast := flagged.step (.destroy (.broadcast rfl)) fun _ _ => trivial
  have asleep := broadcast.step (.thread (.worker () (.enterWait rfl))) nofun
  exact wakes _ asleep rfl () rfl

end Shutdown

end FrameCode.ThreadPool
