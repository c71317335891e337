import FrameCode.ThreadPoolWakeup

/-!
# The task queue of a pool that is shut down

`threadpool_destroy` sets `shutdown_F` without the lock, so a worker may leave
with tasks still in the list.  The queue stays in order: a worker that finds the
flag set takes nothing, whatever it knows about the size.
-/

namespace FrameCode.ThreadPool

open LinkedList

variable {π ω τ : Type}

/-! ## Workers that leave -/

/-- Under the flag, the test of the size decides nothing. -/
def settle : WorkerPc → WorkerPc
  | .checkShutdown => .testSize
  | pc => pc

/-- The pool as its queue sees it once the flag is set. -/
def State.settled (s : State π ω τ) : State π ω τ :=
  { s with shutdown := false, workers := settle ∘ s.workers }

theorem settle_inside {pc : WorkerPc} (inside : (settle pc).Inside) : pc.Inside := by
  cases pc <;> exact inside

theorem of_settle {pc target : WorkerPc} (settled : settle pc = target)
    (other : target ≠ .testSize) : pc = target := by
  cases pc with
  | checkShutdown => exact absurd settled.symm other
  | _ => exact settled

theorem settle_wake (workers : ω → WorkerPc) :
    settle ∘ wake workers = wake (settle ∘ workers) := by
  funext w
  simp only [Function.comp_apply, wake]
  cases workers w <;> rfl

theorem State.Exclusive.settled {s : State π ω τ} (inv : s.Exclusive) : s.settled.Exclusive where
  producer := inv.producer
  worker w inside := inv.worker w (settle_inside inside)

theorem owed_settle {lock : Option (Owner π ω)} {producers : π → ProducerPc τ}
    {workers : ω → WorkerPc} :
    owed lock producers (settle ∘ workers) = owed lock producers workers := by
  cases lock with
  | none => rfl
  | some owner =>
      cases owner with
      | producer p => rfl
      | worker w => cases here : workers w <;> simp [owed, settle, here]

theorem linking_eq_nil {lock : Option (Owner π ω)} {producers : π → ProducerPc τ}
    (outside : ∀ p, producers p = .outside) : linking lock producers = [] := by
  cases lock with
  | none => rfl
  | some owner =>
      cases owner with
      | producer p => simp [linking, outside p]
      | worker w => rfl

theorem Queue.settled {s : State π ω τ} {items : List (Nat × τ)} (queue : Queue s items) :
    Queue s.settled items :=
  { queue with
    size_eq := (congrArg _ owed_settle).trans queue.size_eq
    counted := fun w there => queue.counted w (there.imp (of_settle · nofun) (of_settle · nofun))
    taking := fun w there => queue.taking w (of_settle there nofun)
    busy := fun w address there =>
      queue.busy w address (there.imp (of_settle · nofun) (of_settle · nofun))
    sound := ⟨queue.sound.1, fun w there => queue.sound.2 w (of_settle there nofun)⟩ }

theorem Queue.wake {s : State π ω τ} {items : List (Nat × τ)} (queue : Queue s items) :
    Queue { s with workers := wake s.workers } items :=
  { queue with
    size_eq := (congrArg _ owed_wake).trans queue.size_eq
    counted := fun w there => queue.counted w (there.imp (of_wake · nofun) (of_wake · nofun))
    taking := fun w there => queue.taking w (of_wake there nofun)
    busy := fun w address there =>
      queue.busy w address (there.imp (of_wake · nofun) (of_wake · nofun))
    sound := ⟨queue.sound.1, fun w there => queue.sound.2 w (of_wake there nofun)⟩ }

/-! ## Steps under the flag -/

section Steps

variable [DecidableEq π] [DecidableEq ω] {s t : State π ω τ} {items : List (Nat × τ)}

omit [DecidableEq ω] in
theorem IntoQueue.settled {p : π} (step : IntoQueue p s t) : IntoQueue p s.settled t.settled := by
  cases step with
  | call task here => exact .call task here
  | lock here free => exact .lock here free
  | scan here head => exact .scan here head
  | scanEmpty here head => exact .scanEmpty here head
  | walk here found linked => exact .walk here found linked
  | link here found isLast => exact .link here found isLast
  | lost here missing => exact .lost here missing
  | count here => exact .count here
  | unlock here => exact .unlock here
  | broadcast here =>
      simp only [State.settled, settle_wake]
      exact .broadcast here

omit [DecidableEq π] in
theorem settled_update (s : State π ω τ) (w : ω) (pc : WorkerPc) :
    settle ∘ Function.update s.workers w pc = Function.update s.settled.workers w (settle pc) :=
  Function.comp_update ..

omit [DecidableEq π] in
/-- Under the flag a worker either makes a step of a running pool, or it goes on
towards the exit. -/
theorem CallDoworkThread.settled {w : ω} (step : CallDoworkThread w s t)
    (stopped : s.shutdown = true) :
    CallDoworkThread w s.settled t.settled ∨
      ∃ pc, (pc = .testSize ∨ pc = .exitUnlock) ∧ s.settled.workers w ≠ .takeHead ∧
        t.settled = { s.settled with workers := Function.update s.settled.workers w pc } := by
  have stays {pc : WorkerPc} (here : s.workers w = pc) (other : pc ≠ .checkShutdown) :
      s.settled.workers w = pc := by
    simp only [State.settled, Function.comp_apply, here]
    cases pc <;> first | rfl | exact absurd rfl other
  cases step with
  | lock here free =>
      left
      simp only [State.settled, settled_update]
      exact .lock (stays here nofun) free
  | sizeZero here zero =>
      left
      simp only [State.settled, settled_update]
      exact .sizeZero (stays here nofun) zero
  | sizeNonzero here nonzero =>
      refine Or.inr ⟨.testSize, Or.inl rfl, by rw [stays here nofun]; nofun, ?_⟩
      simp only [State.settled, settled_update, settle]
  | keepWaiting here running =>
      rw [stopped] at running
      cases running
  | stopWaiting here _ =>
      refine Or.inr ⟨.testSize, Or.inl rfl, by rw [stays here nofun]; nofun, ?_⟩
      simp only [State.settled, settled_update, settle]
  | enterWait here =>
      left
      simp only [State.settled, settled_update]
      exact .enterWait (stays here nofun)
  | spurious here =>
      left
      simp only [State.settled, settled_update]
      exact .spurious (stays here nofun)
  | relock here free =>
      left
      simp only [State.settled, settled_update]
      exact .relock (stays here nofun) free
  | shutdown here _ =>
      have testing : s.settled.workers w = .testSize := by
        simp [State.settled, here, settle]
      refine Or.inr ⟨.exitUnlock, Or.inr rfl, by rw [testing]; nofun, ?_⟩
      simp only [State.settled, settled_update, settle]
  | exit here =>
      left
      simp only [State.settled, settled_update]
      exact .exit (stays here nofun)
  | goOn here running =>
      rw [stopped] at running
      cases running
  | take here =>
      left
      simp only [State.settled, settled_update]
      exact .take (stays here nofun)
  | takeHead here head found =>
      left
      simp only [State.settled, settled_update]
      exact .takeHead (stays here nofun) head found
  | nullHead here missing =>
      left
      simp only [State.settled, settled_update]
      exact .nullHead (stays here nofun) missing
  | unlock here =>
      left
      simp only [State.settled, settled_update]
      exact .unlock (stays here nofun)
  | work here found =>
      left
      simp only [State.settled, settled_update]
      exact .work (stays here nofun) found
  | lost here missing =>
      left
      simp only [State.settled, settled_update]
      exact .lost (stays here nofun) missing

/-- The queue is in order, up to what the workers know about its size once the
flag is set. -/
def Ordered (s : State π ω τ) (items : List (Nat × τ)) : Prop :=
  if s.shutdown then Queue s.settled items else Queue s items

omit [DecidableEq π] [DecidableEq ω] in
theorem Ordered.queue (ordered : Ordered s items) : Queue s.settled items := by
  unfold Ordered at ordered
  split_ifs at ordered
  · exact ordered
  · exact ordered.settled

theorem Step.ordered (step : Step s t) (exclusive : s.Exclusive) (ordered : Ordered s items) :
    ∃ items, Ordered t items := by
  have kept := step.shutdown_eq
  cases stopped : s.shutdown with
  | false =>
      have queue : Queue s items := by simpa [Ordered, stopped] using ordered
      obtain ⟨after, queue⟩ : ∃ items, Queue t items := by
        cases step with
        | producer p step => exact step.queue exclusive queue
        | worker w step => exact step.queue exclusive stopped queue
      exact ⟨after, by simpa [Ordered, kept, stopped] using queue⟩
  | true =>
      have queue := ordered.queue
      obtain ⟨after, queue⟩ : ∃ items, Queue t.settled items := by
        cases step with
        | producer p step => exact step.settled.queue exclusive.settled queue
        | worker w step =>
            rcases step.settled stopped with step | ⟨pc, target, before, same⟩
            · exact step.queue exclusive.settled rfl queue
            · rw [same]
              refine ⟨items, CallDoworkThread.queue_step before ?_ ?_ ?_ ?_ queue⟩
              all_goals rcases target with rfl | rfl <;> simp
      exact ⟨after, by simpa [Ordered, kept, stopped] using queue⟩

omit [DecidableEq π] [DecidableEq ω] in
theorem ThreadpoolDestroy.ordered (step : ThreadpoolDestroy s t) (ordered : Ordered s items) :
    Ordered t items := by
  cases step with
  | refuse here stopped =>
      have queue := ordered.queue
      simp only [Ordered, stopped, if_true]
      exact { queue with chain := queue.chain }
  | shutdown here running =>
      have queue := ordered.queue
      simp only [Ordered, if_true]
      exact { queue with chain := queue.chain }
  | broadcast here =>
      cases stopped : s.shutdown with
      | false =>
          have queue : Queue s items := by simpa [Ordered, stopped] using ordered
          have woken := queue.wake
          simp only [Ordered, Bool.false_eq_true, if_false]
          exact { woken with chain := woken.chain }
      | true =>
          have woken := ordered.queue.wake
          simp only [Ordered, if_true, State.settled, settle_wake]
          exact { woken with chain := woken.chain }

end Steps

/-! ## Nodes -/

/-- Every node of the heap belongs to a task on its way into the queue or in it, or
to the worker it was handed to. -/
structure Accounted (s : State π ω τ) : Prop where
  claimed : ∀ address node, s.nodes address = some node →
    address ∈ s.acquired.map Prod.fst ∨ ∃ p task, s.producers p = .lock address task
  working : ∀ w address task node, (w, address, task) ∈ s.handed →
    s.nodes address = some node → s.workers w = .unlock address ∨ s.workers w = .work address

section Steps

variable [DecidableEq π] [DecidableEq ω] {s t : State π ω τ}

omit [DecidableEq ω] in
/-- A producer goes on without touching the nodes. -/
theorem Accounted.stepProducer {p : π} {pc : ProducerPc τ} (accounted : Accounted s)
    (before : ∀ address task, s.producers p ≠ .lock address task) {address : Nat} {node : Node τ}
    (found : s.nodes address = some node) :
    address ∈ s.acquired.map Prod.fst ∨
      ∃ q task, Function.update s.producers p pc q = .lock address task := by
  rcases accounted.claimed address node found with member | ⟨q, task, there⟩
  · exact Or.inl member
  · right
    refine ⟨q, task, ?_⟩
    rw [Function.update_of_ne, there]
    rintro rfl
    exact before address task there

omit [DecidableEq ω] in
theorem IntoQueue.accounted {p : π} {items : List (Nat × τ)} (step : IntoQueue p s t)
    (queue : Queue s.settled items) (accounted : Accounted s) : Accounted t := by
  cases step with
  | call task here =>
      constructor
      · intro address node found
        dsimp only at found ⊢
        by_cases same : address = s.fresh
        · exact Or.inr ⟨p, task, by rw [same, Function.update_self]⟩
        · rw [Function.update_of_ne same] at found
          exact accounted.stepProducer (by rw [here]; nofun) found
      · intro w address other node given found
        have different : address ≠ s.fresh := Nat.ne_of_lt (queue.below _ (queue.handed_sub given))
        dsimp only at found
        rw [Function.update_of_ne different] at found
        exact accounted.working w address other node given found
  | @lock node task here free =>
      refine ⟨fun address content found => ?_, accounted.working⟩
      simp only [List.map_append, List.mem_append]
      rcases accounted.claimed address content found with member | ⟨q, other, there⟩
      · exact Or.inl (Or.inl member)
      · by_cases same : q = p
        · rw [same, here] at there
          cases there
          exact Or.inl (Or.inr (List.mem_singleton_self _))
        · exact Or.inr ⟨q, other, by rwa [Function.update_of_ne same]⟩
  | scan here head | scanEmpty here head | walk here found linked | lost here missing
  | count here | unlock here =>
      exact ⟨fun address node found =>
        accounted.stepProducer (by rw [here]; nofun) found, accounted.working⟩
  | @link node member task current here found isLast =>
      -- The node behind which the task is hung was there before.
      have before {address : Nat} {content : Node τ}
          (there : Function.update s.nodes member (some { current with next := some node })
            address = some content) : ∃ content, s.nodes address = some content := by
        by_cases same : address = member
        · exact ⟨current, by rw [same, found]⟩
        · exact ⟨content, by rwa [Function.update_of_ne same] at there⟩
      constructor
      · intro address content there
        obtain ⟨old, there⟩ := before there
        exact accounted.stepProducer (by rw [here]; nofun) there
      · intro w address other content given there
        obtain ⟨old, there⟩ := before there
        exact accounted.working w address other old given there
  | broadcast here =>
      constructor
      · intro address node found
        exact accounted.stepProducer (by rw [here]; nofun) found
      · intro w address task node given found
        rcases accounted.working w address task node given found with there | there
        · exact Or.inl (by simp [wake, there])
        · exact Or.inr (by simp [wake, there])

omit [DecidableEq π] in
/-- A worker that has no task in its hands goes on without touching the nodes. -/
theorem Accounted.stepWorker {w : ω} {pc : WorkerPc} (accounted : Accounted s)
    (idle : ∀ address, s.workers w ≠ .unlock address ∧ s.workers w ≠ .work address)
    {v : ω} {address : Nat} {task : τ} {node : Node τ} (given : (v, address, task) ∈ s.handed)
    (found : s.nodes address = some node) :
    Function.update s.workers w pc v = .unlock address ∨
      Function.update s.workers w pc v = .work address := by
  have there := accounted.working v address task node given found
  have other : v ≠ w := by
    rintro rfl
    exact there.elim (idle address).1 (idle address).2
  rwa [Function.update_of_ne other]

omit [DecidableEq π] in
theorem CallDoworkThread.accounted {w : ω} (step : CallDoworkThread w s t)
    (accounted : Accounted s) : Accounted t := by
  cases step with
  | lock here | sizeZero here | sizeNonzero here | keepWaiting here | stopWaiting here
  | enterWait here | spurious here | relock here | shutdown here | exit here | goOn here
  | take here | nullHead here =>
      exact ⟨accounted.claimed, fun v address task node given found =>
        accounted.stepWorker (fun _ => by rw [here]; exact ⟨nofun, nofun⟩) given found⟩
  | @takeHead address node here head found =>
      refine ⟨accounted.claimed, fun v other task content given there => ?_⟩
      rcases List.mem_append.mp given with before | new
      · exact accounted.stepWorker (fun _ => by rw [here]; exact ⟨nofun, nofun⟩) before there
      · cases List.mem_singleton.mp new
        exact Or.inl (Function.update_self ..)
  | @unlock address here =>
      refine ⟨accounted.claimed, fun v other task content given there => ?_⟩
      dsimp only
      by_cases same : v = w
      · subst same
        rw [Function.update_self]
        rcases accounted.working v other task content given there with pc | pc
        · rw [here] at pc
          cases pc
          exact Or.inr rfl
        · rw [here] at pc
          cases pc
      · rw [Function.update_of_ne same]
        exact accounted.working v other task content given there
  | @work address node here found =>
      have kept {other : Nat} {content : Node τ}
          (there : Function.update s.nodes address none other = some content) :
          other ≠ address ∧ s.nodes other = some content := by
        by_cases same : other = address
        · rw [same, Function.update_self] at there
          cases there
        · exact ⟨same, by rwa [Function.update_of_ne same] at there⟩
      constructor
      · intro other content there
        exact accounted.claimed other content (kept there).2
      · intro v other task content given there
        obtain ⟨different, there⟩ := kept there
        have before := accounted.working v other task content given there
        have otherWorker : v ≠ w := by
          rintro rfl
          rw [here] at before
          rcases before with pc | pc
          · cases pc
          · exact different (by cases pc; rfl)
        dsimp only
        rwa [Function.update_of_ne otherWorker]
  | @lost address here missing =>
      refine ⟨accounted.claimed, fun v other task content given there => ?_⟩
      have before := accounted.working v other task content given there
      have otherWorker : v ≠ w := by
        rintro rfl
        rw [here] at before
        rcases before with pc | pc
        · cases pc
        · cases pc
          rw [missing] at there
          cases there
      dsimp only
      rwa [Function.update_of_ne otherWorker]

end Steps

/-! ## Whole runs -/

/-- What every state of a pool keeps, shut down or not. -/
structure Sound (s : State π ω τ) : Prop where
  exclusive : s.Exclusive
  ordered : ∃ items, Ordered s items
  accounted : Accounted s

namespace Sound

variable {s : State π ω τ}

theorem producer_ne_crashed (sound : Sound s) (p : π) : s.producers p ≠ .crashed := by
  obtain ⟨items, ordered⟩ := sound.ordered
  exact ordered.queue.sound.1 p

theorem worker_ne_crashed (sound : Sound s) (w : ω) : s.workers w ≠ .crashed := by
  obtain ⟨items, ordered⟩ := sound.ordered
  intro crashed
  exact ordered.queue.sound.2 w (by simp [State.settled, crashed, settle])

/-- With every producer outside and no task in the hands of a worker, the list holds
all the nodes of the heap. -/
theorem owned (sound : Sound s) (outside : ∀ p, s.producers p = .outside)
    (idle : ∀ w address, s.workers w ≠ .unlock address ∧ s.workers w ≠ .work address) :
    ∃ items, Queue s.settled items ∧ s.acquired = s.inserted ∧
      ∀ address node, s.nodes address = some node → address ∈ items.map Prod.fst := by
  obtain ⟨items, ordered⟩ := sound.ordered
  have queue := ordered.queue
  have logged : s.inserted = s.handed.map Prod.snd ++ items := queue.logged
  have acquired : s.acquired = s.inserted := by
    have before : s.acquired = s.inserted ++ linking s.queueLock s.producers := queue.acquired
    rwa [linking_eq_nil outside, List.append_nil] at before
  refine ⟨items, queue, acquired, fun address node found => ?_⟩
  rcases sound.accounted.claimed address node found with member | ⟨p, task, there⟩
  · rw [acquired, logged, List.map_append, List.mem_append, List.map_map] at member
    rcases member with member | listed
    · obtain ⟨⟨w, other, task⟩, given, rfl⟩ := List.mem_map.mp member
      rcases sound.accounted.working w other task node given found with there | there
      · exact absurd there (idle w other).1
      · exact absurd there (idle w other).2
    · exact listed
  · rw [outside p] at there
    cases there

end Sound

section Runs

variable [DecidableEq π] [DecidableEq ω] {s t : State π ω τ}

omit [DecidableEq π] [DecidableEq ω] in
theorem sound_init : Sound (threadPoolInit : State π ω τ) where
  exclusive := exclusive_init
  ordered := ⟨[], queue_init⟩
  accounted := ⟨nofun, nofun⟩

theorem Step.sound (step : Step s t) (sound : Sound s) : Sound t := by
  obtain ⟨items, ordered⟩ := sound.ordered
  refine ⟨step.exclusive sound.exclusive, step.ordered sound.exclusive ordered, ?_⟩
  cases step with
  | producer p step => exact step.accounted ordered.queue sound.accounted
  | worker w step => exact step.accounted sound.accounted

omit [DecidableEq π] [DecidableEq ω] in
theorem ThreadpoolDestroy.sound (step : ThreadpoolDestroy s t) (sound : Sound s) : Sound t := by
  obtain ⟨items, ordered⟩ := sound.ordered
  have after := step.ordered ordered
  cases step with
  | refuse here stopped | shutdown here running =>
      exact ⟨sound.exclusive, ⟨items, after⟩, ⟨sound.accounted.claimed, sound.accounted.working⟩⟩
  | broadcast here =>
      refine ⟨Exclusive.wake sound.exclusive, ⟨items, after⟩, sound.accounted.claimed, ?_⟩
      intro w address task node given found
      rcases sound.accounted.working w address task node given found with there | there
      · exact Or.inl (by simp [wake, there])
      · exact Or.inr (by simp [wake, there])

theorem PoolStep.sound (step : PoolStep s t) (sound : Sound s) : Sound t := by
  cases step with
  | thread step => exact step.sound sound
  | destroy step => exact step.sound sound

end Runs

end FrameCode.ThreadPool
