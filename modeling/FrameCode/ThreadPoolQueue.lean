import FrameCode.ThreadPool

/-!
# The task queue of the thread pool

In a pool that nobody destroys, whatever the schedule, the list at
`queue_head_F` holds exactly the tasks that were inserted and not yet handed
out, in the order in which their insertions took the lock.
-/

namespace FrameCode.ThreadPool

open LinkedList

variable {π ω τ : Type}

/-! ## Mutual exclusion -/

/-- The statements of `Into_Queue` under the lock. -/
def ProducerPc.Inside : ProducerPc τ → Prop
  | .scan .. | .walk .. | .count | .unlock => True
  | _ => False

/-- The statements of `Call_Dowork_Thread` under the lock. -/
def WorkerPc.Inside : WorkerPc → Prop
  | .testSize | .testShutdown | .enterWait | .checkShutdown | .exitUnlock | .take | .takeHead
  | .unlock _ => True
  | _ => False

/-- Only the owner of the lock is inside a critical section. -/
structure Exclusive (lock : Option (Owner π ω)) (producers : π → ProducerPc τ)
    (workers : ω → WorkerPc) : Prop where
  producer : ∀ p, (producers p).Inside → lock = some (.producer p)
  worker : ∀ w, (workers w).Inside → lock = some (.worker w)

def State.Exclusive (s : State π ω τ) : Prop :=
  ThreadPool.Exclusive s.queueLock s.producers s.workers

namespace Exclusive

variable {lock : Option (Owner π ω)} {producers : π → ProducerPc τ} {workers : ω → WorkerPc}

theorem wake (inv : Exclusive lock producers workers) :
    Exclusive lock producers (wake workers) where
  producer := inv.producer
  worker w inside := by
    apply inv.worker w
    unfold ThreadPool.wake at inside
    cases pc : workers w <;> simp [pc, WorkerPc.Inside] at inside ⊢

section Producers

variable [DecidableEq π] {p : π} {pc : ProducerPc τ}

/-- A step under the lock, or outside of it. -/
theorem stepProducer (inv : Exclusive lock producers workers)
    (kept : pc.Inside → (producers p).Inside) :
    Exclusive lock (Function.update producers p pc) workers where
  producer q inside := by
    by_cases same : q = p
    · subst same
      rw [Function.update_self] at inside
      exact inv.producer q (kept inside)
    · rw [Function.update_of_ne same] at inside
      exact inv.producer q inside
  worker := inv.worker

theorem acquireProducer (inv : Exclusive lock producers workers) (free : lock = none) :
    Exclusive (some (.producer p)) (Function.update producers p pc) workers where
  producer q inside := by
    by_cases same : q = p
    · rw [same]
    · rw [Function.update_of_ne same] at inside
      rw [free] at inv
      cases inv.producer q inside
  worker w inside := by
    rw [free] at inv
    cases inv.worker w inside

theorem releaseProducer (inv : Exclusive lock producers workers) (held : (producers p).Inside)
    (left : ¬ pc.Inside) : Exclusive none (Function.update producers p pc) workers where
  producer q inside := by
    by_cases same : q = p
    · subst same
      rw [Function.update_self] at inside
      exact absurd inside left
    · rw [Function.update_of_ne same] at inside
      have owners := (inv.producer p held).symm.trans (inv.producer q inside)
      cases owners
      exact absurd rfl same
  worker w inside := by
    have owners := (inv.producer p held).symm.trans (inv.worker w inside)
    cases owners

end Producers

section Workers

variable [DecidableEq ω] {w : ω} {pc : WorkerPc}

theorem stepWorker (inv : Exclusive lock producers workers)
    (kept : pc.Inside → (workers w).Inside) :
    Exclusive lock producers (Function.update workers w pc) where
  producer := inv.producer
  worker v inside := by
    by_cases same : v = w
    · subst same
      rw [Function.update_self] at inside
      exact inv.worker v (kept inside)
    · rw [Function.update_of_ne same] at inside
      exact inv.worker v inside

theorem acquireWorker (inv : Exclusive lock producers workers) (free : lock = none) :
    Exclusive (some (.worker w)) producers (Function.update workers w pc) where
  producer p inside := by
    rw [free] at inv
    cases inv.producer p inside
  worker v inside := by
    by_cases same : v = w
    · rw [same]
    · rw [Function.update_of_ne same] at inside
      rw [free] at inv
      cases inv.worker v inside

theorem releaseWorker (inv : Exclusive lock producers workers) (held : (workers w).Inside)
    (left : ¬ pc.Inside) : Exclusive none producers (Function.update workers w pc) where
  producer p inside := by
    have owners := (inv.worker w held).symm.trans (inv.producer p inside)
    cases owners
  worker v inside := by
    by_cases same : v = w
    · subst same
      rw [Function.update_self] at inside
      exact absurd inside left
    · rw [Function.update_of_ne same] at inside
      have owners := (inv.worker w held).symm.trans (inv.worker v inside)
      cases owners
      exact absurd rfl same

end Workers

end Exclusive

section Steps

variable [DecidableEq π] [DecidableEq ω] {s t : State π ω τ}

omit [DecidableEq ω] in
theorem IntoQueue.exclusive {p : π} (step : IntoQueue p s t) (inv : s.Exclusive) :
    t.Exclusive := by
  cases step with
  | call task here => exact inv.stepProducer False.elim
  | lock here free => exact inv.acquireProducer free
  | scan here head => exact inv.stepProducer fun _ => by rw [here]; trivial
  | scanEmpty here head => exact inv.stepProducer fun _ => by rw [here]; trivial
  | walk here found linked => exact inv.stepProducer fun _ => by rw [here]; trivial
  | link here found isLast => exact inv.stepProducer fun _ => by rw [here]; trivial
  | lost here missing => exact inv.stepProducer False.elim
  | count here => exact inv.stepProducer fun _ => by rw [here]; trivial
  | unlock here => exact inv.releaseProducer (by rw [here]; trivial) id
  | broadcast here => exact inv.wake.stepProducer False.elim

omit [DecidableEq π] in
theorem CallDoworkThread.exclusive {w : ω} (step : CallDoworkThread w s t)
    (inv : s.Exclusive) : t.Exclusive := by
  cases step with
  | lock here free => exact inv.acquireWorker free
  | sizeZero here zero => exact inv.stepWorker fun _ => by rw [here]; trivial
  | sizeNonzero here nonzero => exact inv.stepWorker fun _ => by rw [here]; trivial
  | keepWaiting here running => exact inv.stepWorker fun _ => by rw [here]; trivial
  | stopWaiting here stopped => exact inv.stepWorker fun _ => by rw [here]; trivial
  | enterWait here => exact inv.releaseWorker (by rw [here]; trivial) id
  | spurious here => exact inv.stepWorker False.elim
  | relock here free => exact inv.acquireWorker free
  | shutdown here stopped => exact inv.stepWorker fun _ => by rw [here]; trivial
  | exit here => exact inv.releaseWorker (by rw [here]; trivial) id
  | goOn here running => exact inv.stepWorker fun _ => by rw [here]; trivial
  | take here => exact inv.stepWorker fun _ => by rw [here]; trivial
  | takeHead here head found => exact inv.stepWorker fun _ => by rw [here]; trivial
  | nullHead here missing => exact inv.stepWorker False.elim
  | unlock here => exact inv.releaseWorker (by rw [here]; trivial) id
  | work here found => exact inv.stepWorker False.elim
  | lost here missing => exact inv.stepWorker False.elim

theorem Step.exclusive (step : Step s t) (inv : s.Exclusive) : t.Exclusive := by
  cases step with
  | producer p step => exact step.exclusive inv
  | worker w step => exact step.exclusive inv

omit [DecidableEq π] [DecidableEq ω] in
theorem exclusive_init : (threadPoolInit : State π ω τ).Exclusive :=
  ⟨fun _ inside => inside.elim, fun _ inside => inside.elim⟩

/-- The flag of a pool that nobody destroys stays clear. -/
theorem Step.shutdown_eq (step : Step s t) : t.shutdown = s.shutdown := by
  cases step with
  | producer p step => cases step <;> rfl
  | worker w step => cases step <;> rfl

end Steps

/-! ## The queue -/

/-- What the owner of the lock still owes to `cur_queue_size_F`: a producer that
has linked its task has not counted it yet, and a worker has uncounted the task
it is about to take. -/
def owed (lock : Option (Owner π ω)) (producers : π → ProducerPc τ) (workers : ω → WorkerPc) :
    Int :=
  match lock with
  | none => 0
  | some (.producer p) =>
      match producers p with
      | .count => 1
      | _ => 0
  | some (.worker w) =>
      match workers w with
      | .takeHead => 1
      | _ => 0

/-- The task that the owner of the lock is about to link. -/
def linking (lock : Option (Owner π ω)) (producers : π → ProducerPc τ) : List (Nat × τ) :=
  match lock with
  | some (.producer p) =>
      match producers p with
      | .scan node task => [(node, task)]
      | .walk node task _ => [(node, task)]
      | _ => []
  | _ => []

section Owner

variable {lock : Option (Owner π ω)} {producers : π → ProducerPc τ} {workers : ω → WorkerPc}

theorem of_update {α β : Type} [DecidableEq α] {f : α → β} {a b : α} {value target : β}
    (updated : Function.update f a value b = target) (other : value ≠ target) : f b = target := by
  by_cases same : b = a
  · rw [same, Function.update_self] at updated
    exact absurd updated other
  · rwa [Function.update_of_ne same] at updated

theorem of_update_or {α β : Type} [DecidableEq α] {f : α → β} {a b : α} {value first second : β}
    (updated : Function.update f a value b = first ∨ Function.update f a value b = second)
    (notFirst : value ≠ first) (notSecond : value ≠ second) : f b = first ∨ f b = second := by
  rcases updated with updated | updated
  · exact Or.inl (of_update updated notFirst)
  · exact Or.inr (of_update updated notSecond)

theorem of_wake {w : ω} {pc : WorkerPc} (woken : wake workers w = pc) (other : pc ≠ .woken) :
    workers w = pc := by
  unfold wake at woken
  cases here : workers w <;> simp only [here] at woken
  case waiting => exact absurd woken.symm other
  all_goals exact woken

theorem owed_wake : owed lock producers (wake workers) = owed lock producers workers := by
  cases lock with
  | none => rfl
  | some owner =>
      cases owner with
      | producer p => rfl
      | worker w => cases here : workers w <;> simp [owed, wake, here]

theorem owed_stepProducer [DecidableEq π] {p : π} {pc : ProducerPc τ}
    (before : ¬ (producers p).Inside) (after : ¬ pc.Inside) :
    owed lock (Function.update producers p pc) workers = owed lock producers workers := by
  cases lock with
  | none => rfl
  | some owner =>
      cases owner with
      | worker w => rfl
      | producer q =>
          by_cases same : q = p
          · subst same
            simp only [owed, Function.update_self]
            cases here : producers q <;> cases pc <;>
              first | rfl | exact absurd trivial after | exact absurd (here ▸ trivial) before
          · simp only [owed, Function.update_of_ne same]

theorem linking_stepProducer [DecidableEq π] {p : π} {pc : ProducerPc τ}
    (before : ¬ (producers p).Inside) (after : ¬ pc.Inside) :
    linking lock (Function.update producers p pc) = linking lock producers := by
  cases lock with
  | none => rfl
  | some owner =>
      cases owner with
      | worker w => rfl
      | producer q =>
          by_cases same : q = p
          · subst same
            simp only [linking, Function.update_self]
            cases here : producers q <;> cases pc <;>
              first | rfl | exact absurd trivial after | exact absurd (here ▸ trivial) before
          · simp only [linking, Function.update_of_ne same]

theorem owed_stepWorker [DecidableEq ω] {w : ω} {pc : WorkerPc}
    (before : workers w ≠ .takeHead) (after : pc ≠ .takeHead) :
    owed lock producers (Function.update workers w pc) = owed lock producers workers := by
  cases lock with
  | none => rfl
  | some owner =>
      cases owner with
      | producer p => rfl
      | worker v =>
          by_cases same : v = w
          · subst same
            simp only [owed, Function.update_self]
          · simp only [owed, Function.update_of_ne same]

end Owner

/-- The state of the queue with the tasks in its list. -/
structure Queue (s : State π ω τ) (items : List (Nat × τ)) : Prop where
  chain : Chain s.nodes s.queueHead items
  logged : s.inserted = s.handed.map Prod.snd ++ items
  acquired : s.acquired = s.inserted ++ linking s.queueLock s.producers
  size_eq : s.curQueueSize + owed s.queueLock s.producers s.workers = items.length
  nodup : (s.acquired.map Prod.fst).Nodup
  below : ∀ address ∈ s.acquired.map Prod.fst, address < s.fresh
  unused : ∀ address, s.fresh ≤ address → s.nodes address = none
  linked : ∀ entry ∈ linking s.queueLock s.producers, s.nodes entry.1 = some ⟨entry.2, none⟩
  pending : ∀ p node task, s.producers p = .lock node task →
    s.nodes node = some ⟨task, none⟩ ∧ node ∉ s.acquired.map Prod.fst
  distinct : ∀ p q node task other, s.producers p = .lock node task →
    s.producers q = .lock node other → p = q
  walking : ∀ p node task member, s.producers p = .walk node task member →
    member ∈ items.map Prod.fst
  counted : ∀ w, s.workers w = .checkShutdown ∨ s.workers w = .take → 0 < s.curQueueSize
  taking : ∀ w, s.workers w = .takeHead → 0 ≤ s.curQueueSize
  busy : ∀ w address, s.workers w = .unlock address ∨ s.workers w = .work address →
    (∃ task, (w, address, task) ∈ s.handed) ∧ ∃ node, s.nodes address = some node
  sound : (∀ p, s.producers p ≠ .crashed) ∧ ∀ w, s.workers w ≠ .crashed

theorem queue_init : Queue (threadPoolInit : State π ω τ) [] where
  chain := .nil
  logged := rfl
  acquired := rfl
  size_eq := rfl
  nodup := List.nodup_nil
  below _ member := by cases member
  unused _ _ := rfl
  linked _ member := by cases member
  pending _ _ _ here := by cases here
  distinct _ _ _ _ _ here := by cases here
  walking _ _ _ _ here := by cases here
  counted _ here := by rcases here with here | here <;> cases here
  taking _ here := by cases here
  busy _ _ here := by rcases here with here | here <;> cases here
  sound := ⟨fun _ => nofun, fun _ => nofun⟩

namespace Queue

variable {s : State π ω τ} {items : List (Nat × τ)}

theorem items_sub (queue : Queue s items) {address : Nat}
    (member : address ∈ items.map Prod.fst) : address ∈ s.acquired.map Prod.fst := by
  rw [queue.acquired, queue.logged, List.map_append, List.map_append]
  simp [member]

theorem handed_sub (queue : Queue s items) {w : ω} {address : Nat} {task : τ}
    (member : (w, address, task) ∈ s.handed) : address ∈ s.acquired.map Prod.fst := by
  rw [queue.acquired, queue.logged, List.map_append, List.map_append, List.map_map]
  exact List.mem_append_left _ (List.mem_append_left _
    (List.mem_map.mpr ⟨(w, address, task), member, rfl⟩))

theorem items_nodup (queue : Queue s items) : (items.map Prod.fst).Nodup := by
  have nodup := queue.nodup
  rw [queue.acquired, queue.logged, List.map_append, List.map_append] at nodup
  exact (nodup.of_append_left).of_append_right

/-- A task that was handed out is no longer in the list. -/
theorem not_mem_of_handed (queue : Queue s items) {w : ω} {address : Nat} {task : τ}
    (member : (w, address, task) ∈ s.handed) : address ∉ items.map Prod.fst := by
  have nodup := queue.nodup
  rw [queue.acquired, queue.logged, List.map_append, List.map_append, List.map_map] at nodup
  have disjoint := List.disjoint_of_nodup_append nodup.of_append_left
  exact disjoint (List.mem_map.mpr ⟨(w, address, task), member, rfl⟩)

/-- A task is handed to one worker only. -/
theorem handed_unique (queue : Queue s items) {v w : ω} {address : Nat} {task other : τ}
    (first : (v, address, task) ∈ s.handed) (second : (w, address, other) ∈ s.handed) :
    v = w := by
  have nodup := queue.nodup
  rw [queue.acquired, queue.logged, List.map_append, List.map_append, List.map_map] at nodup
  have same := List.inj_on_of_nodup_map nodup.of_append_left.of_append_left first second rfl
  exact congrArg Prod.fst same

theorem lt_fresh (queue : Queue s items) {address : Nat} {node : Node τ}
    (found : s.nodes address = some node) : address < s.fresh := by
  by_contra later
  rw [queue.unused address (Nat.not_lt.mp later)] at found
  cases found

end Queue

/-! ## The steps of a producer -/

section Producers

variable [DecidableEq π] {s t : State π ω τ} {items : List (Nat × τ)} {p : π}

theorem IntoQueue.queue_call {task : τ} (here : s.producers p = .outside)
    (queue : Queue s items) :
    Queue { s with
      producers := Function.update s.producers p (.lock s.fresh task)
      nodes := Function.update s.nodes s.fresh (some ⟨task, none⟩)
      fresh := s.fresh + 1 } items := by
  have outside : ¬ (s.producers p).Inside := by rw [here]; exact id
  have stays : linking s.queueLock (Function.update s.producers p (.lock s.fresh task)) =
      linking s.queueLock s.producers := linking_stepProducer outside id
  have kept {address : Nat} {node : Node τ} (found : s.nodes address = some node) :
      Function.update s.nodes s.fresh (some ⟨task, none⟩) address = some node := by
    rw [Function.update_of_ne (Nat.ne_of_lt (queue.lt_fresh found)), found]
  have newPc {q : π} {node : Nat} {other : τ}
      (pc : Function.update s.producers p (.lock s.fresh task) q = .lock node other) :
      q = p ∧ node = s.fresh ∧ other = task ∨ s.producers q = .lock node other := by
    by_cases same : q = p
    · rw [same, Function.update_self] at pc
      cases pc
      exact Or.inl ⟨same, rfl, rfl⟩
    · exact Or.inr (by rwa [Function.update_of_ne same] at pc)
  exact { queue with
    chain := queue.chain.update fun member =>
      absurd (queue.below _ (queue.items_sub member)) (Nat.lt_irrefl _)
    acquired := queue.acquired.trans (congrArg _ stays.symm)
    size_eq := (congrArg _ (owed_stepProducer outside id)).trans queue.size_eq
    below := fun address member => Nat.lt_succ_of_lt (queue.below address member)
    unused := fun address later =>
      (Function.update_of_ne (Nat.ne_of_gt later) _ _).trans
        (queue.unused address (Nat.le_of_succ_le later))
    linked := fun entry member => kept (queue.linked entry (stays ▸ member))
    pending := fun q node other pc => by
      rcases newPc pc with ⟨-, rfl, rfl⟩ | before
      · exact ⟨Function.update_self .., fun member =>
          absurd (queue.below _ member) (Nat.lt_irrefl _)⟩
      · obtain ⟨found, absent⟩ := queue.pending q node other before
        exact ⟨kept found, absent⟩
    distinct := fun q r node first second firstPc secondPc => by
      rcases newPc firstPc with ⟨rfl, rfl, -⟩ | firstBefore
      · rcases newPc secondPc with ⟨rfl, -⟩ | secondBefore
        · rfl
        · exact absurd (queue.lt_fresh (queue.pending r _ _ secondBefore).1) (Nat.lt_irrefl _)
      · rcases newPc secondPc with ⟨-, rfl, -⟩ | secondBefore
        · exact absurd (queue.lt_fresh (queue.pending q _ _ firstBefore).1) (Nat.lt_irrefl _)
        · exact queue.distinct q r node first second firstBefore secondBefore
    walking := fun q node other member pc =>
      queue.walking q node other member (of_update pc nofun)
    busy := fun w address pc => by
      obtain ⟨given, node, found⟩ := queue.busy w address pc
      exact ⟨given, node, kept found⟩
    sound := ⟨fun q pc => queue.sound.1 q (of_update pc nofun), queue.sound.2⟩ }

theorem IntoQueue.queue_lock {node : Nat} {task : τ} (here : s.producers p = .lock node task)
    (free : s.queueLock = none) (queue : Queue s items) :
    Queue { s with
      producers := Function.update s.producers p (.scan node task)
      queueLock := some (.producer p)
      acquired := s.acquired ++ [(node, task)] } items := by
  obtain ⟨found, absent⟩ := queue.pending p node task here
  have noneLinking : s.acquired = s.inserted := by simpa [free, linking] using queue.acquired
  have newLinking : linking (some (.producer p) : Option (Owner π ω))
      (Function.update s.producers p (.scan node task)) = [(node, task)] := by
    simp [linking]
  have size_eq := queue.size_eq
  rw [free] at size_eq
  exact { queue with
    acquired := by rw [newLinking, noneLinking]
    size_eq := by simpa [owed] using size_eq
    nodup := by
      rw [List.map_append]
      exact queue.nodup.append (List.nodup_singleton _) (by simpa using absent)
    below := fun address member => by
      rw [List.map_append, List.mem_append] at member
      rcases member with before | new
      · exact queue.below address before
      · rw [List.mem_singleton.mp new]
        exact queue.lt_fresh found
    linked := fun entry member => by
      rw [newLinking] at member
      rw [List.mem_singleton.mp member]
      exact found
    pending := fun q other content pc => by
      have before : s.producers q = .lock other content := of_update pc nofun
      obtain ⟨otherFound, otherAbsent⟩ := queue.pending q other content before
      refine ⟨otherFound, ?_⟩
      rw [List.map_append, List.mem_append, not_or]
      refine ⟨otherAbsent, fun new => ?_⟩
      obtain rfl : other = node := List.mem_singleton.mp new
      obtain rfl := queue.distinct q p other content task before here
      exact absurd pc (by simp)
    distinct := fun q r other first second firstPc secondPc =>
      queue.distinct q r other first second (of_update firstPc nofun) (of_update secondPc nofun)
    walking := fun q other content member pc =>
      queue.walking q other content member (of_update pc nofun)
    sound := ⟨fun q pc => queue.sound.1 q (of_update pc nofun), queue.sound.2⟩ }

/-- A producer under the lock goes to another member of the list. -/
theorem IntoQueue.queue_walk {node next : Nat} {task : τ} (lock : s.queueLock = some (.producer p))
    (here : s.producers p = .scan node task ∨ ∃ member, s.producers p = .walk node task member)
    (inside : next ∈ items.map Prod.fst) (queue : Queue s items) :
    Queue { s with producers := Function.update s.producers p (.walk node task next) } items := by
  have oldLinking : linking s.queueLock s.producers = [(node, task)] := by
    rcases here with here | ⟨member, here⟩ <;> simp [linking, lock, here]
  have oldOwed : owed s.queueLock s.producers s.workers = 0 := by
    rcases here with here | ⟨member, here⟩ <;> simp [owed, lock, here]
  have newLinking : linking s.queueLock
      (Function.update s.producers p (.walk node task next)) = [(node, task)] := by
    simp [linking, lock]
  have newOwed : owed s.queueLock (Function.update s.producers p (.walk node task next))
      s.workers = 0 := by
    simp [owed, lock]
  have walking (q : π) (other : Nat) (content : τ) (member : Nat)
      (pc : Function.update s.producers p (.walk node task next) q =
        .walk other content member) : member ∈ items.map Prod.fst := by
    by_cases same : q = p
    · rw [same, Function.update_self] at pc
      cases pc
      exact inside
    · rw [Function.update_of_ne same] at pc
      exact queue.walking q other content member pc
  exact { queue with
    acquired := queue.acquired.trans (congrArg _ (oldLinking.trans newLinking.symm))
    size_eq := (congrArg _ (newOwed.trans oldOwed.symm)).trans queue.size_eq
    linked := fun entry member => by
      rw [newLinking, ← oldLinking] at member
      exact queue.linked entry member
    pending := fun q other content pc => queue.pending q other content (of_update pc nofun)
    distinct := fun q r other first second firstPc secondPc =>
      queue.distinct q r other first second (of_update firstPc nofun) (of_update secondPc nofun)
    walking := walking
    sound := ⟨fun q pc => queue.sound.1 q (of_update pc nofun), queue.sound.2⟩ }

/-- A producer links its task behind the list. -/
theorem IntoQueue.queue_link {node : Nat} {task : τ} {head : Option Nat}
    {nodes : Nat → Option (Node τ)} (lock : s.queueLock = some (.producer p))
    (here : s.producers p = .scan node task ∨ ∃ member, s.producers p = .walk node task member)
    (chain : Chain nodes head (items ++ [(node, task)]))
    (kept : ∀ address, address ∉ items.map Prod.fst → nodes address = s.nodes address)
    (stillThere : ∀ address content, s.nodes address = some content →
      ∃ content, nodes address = some content) (queue : Queue s items) :
    Queue { s with
      producers := Function.update s.producers p .count
      queueHead := head
      nodes := nodes
      inserted := s.inserted ++ [(node, task)] } (items ++ [(node, task)]) := by
  have oldLinking : linking s.queueLock s.producers = [(node, task)] := by
    rcases here with here | ⟨member, here⟩ <;> simp [linking, lock, here]
  have oldOwed : owed s.queueLock s.producers s.workers = 0 := by
    rcases here with here | ⟨member, here⟩ <;> simp [owed, lock, here]
  have newLinking : linking s.queueLock (Function.update s.producers p .count) = [] := by
    simp [linking, lock]
  have newOwed : owed s.queueLock (Function.update s.producers p .count) s.workers = 1 := by
    simp [owed, lock]
  have size_eq : s.curQueueSize + owed s.queueLock (Function.update s.producers p .count)
      s.workers = (items ++ [(node, task)]).length := by
    have before := queue.size_eq
    rw [oldOwed] at before
    rw [newOwed, List.length_append, List.length_singleton]
    omega
  have unused (address : Nat) (later : s.fresh ≤ address) : nodes address = none := by
    rw [kept address fun member =>
      absurd (queue.below _ (queue.items_sub member)) (Nat.not_lt.mpr later)]
    exact queue.unused address later
  exact { queue with
    chain := chain
    logged := by rw [queue.logged, List.append_assoc]
    acquired := by rw [newLinking, List.append_nil, queue.acquired, oldLinking]
    size_eq := size_eq
    unused := unused
    linked := fun entry member => by
      rw [newLinking] at member
      cases member
    pending := fun q other content pc => by
      obtain ⟨found, absent⟩ := queue.pending q other content (of_update pc nofun)
      exact ⟨(kept other fun member => absent (queue.items_sub member)).trans found, absent⟩
    distinct := fun q r other first second firstPc secondPc =>
      queue.distinct q r other first second (of_update firstPc nofun) (of_update secondPc nofun)
    walking := fun q other content member pc => by
      rw [List.map_append]
      exact List.mem_append_left _ (queue.walking q other content member (of_update pc nofun))
    busy := fun w address pc => by
      obtain ⟨given, content, found⟩ := queue.busy w address pc
      exact ⟨given, stillThere address content found⟩
    sound := ⟨fun q pc => queue.sound.1 q (of_update pc nofun), queue.sound.2⟩ }

theorem IntoQueue.queue_count (here : s.producers p = .count)
    (lock : s.queueLock = some (.producer p)) (queue : Queue s items) :
    Queue { s with
      producers := Function.update s.producers p .unlock
      curQueueSize := s.curQueueSize + 1 } items := by
  have oldLinking : linking s.queueLock s.producers = [] := by simp [linking, lock, here]
  have newLinking : linking s.queueLock (Function.update s.producers p .unlock) = [] := by
    simp [linking, lock]
  have newOwed : owed s.queueLock (Function.update s.producers p .unlock) s.workers = 0 := by
    simp [owed, lock]
  have oldOwed : owed s.queueLock s.producers s.workers = 1 := by simp [owed, lock, here]
  have size_eq : s.curQueueSize + 1 + owed s.queueLock
      (Function.update s.producers p .unlock) s.workers = items.length := by
    have before := queue.size_eq
    rw [oldOwed] at before
    rw [newOwed]
    omega
  exact { queue with
    acquired := queue.acquired.trans (congrArg _ (oldLinking.trans newLinking.symm))
    size_eq := size_eq
    linked := fun entry member => by
      rw [newLinking] at member
      cases member
    pending := fun q other content pc => queue.pending q other content (of_update pc nofun)
    distinct := fun q r other first second firstPc secondPc =>
      queue.distinct q r other first second (of_update firstPc nofun) (of_update secondPc nofun)
    walking := fun q other content member pc =>
      queue.walking q other content member (of_update pc nofun)
    counted := fun w pc => Int.lt_add_one_of_le (Int.le_of_lt (queue.counted w pc))
    taking := fun w pc => Int.le_of_lt (Int.lt_add_one_of_le (queue.taking w pc))
    sound := ⟨fun q pc => queue.sound.1 q (of_update pc nofun), queue.sound.2⟩ }

theorem IntoQueue.queue_unlock (here : s.producers p = .unlock)
    (lock : s.queueLock = some (.producer p)) (queue : Queue s items) :
    Queue { s with
      producers := Function.update s.producers p .broadcast
      queueLock := none } items := by
  have oldLinking : linking s.queueLock s.producers = [] := by simp [linking, lock, here]
  have oldOwed : owed s.queueLock s.producers s.workers = 0 := by simp [owed, lock, here]
  exact { queue with
    acquired := queue.acquired.trans (congrArg _ oldLinking)
    size_eq := (congrArg _ oldOwed.symm).trans queue.size_eq
    linked := fun entry member => by cases member
    pending := fun q other content pc => queue.pending q other content (of_update pc nofun)
    distinct := fun q r other first second firstPc secondPc =>
      queue.distinct q r other first second (of_update firstPc nofun) (of_update secondPc nofun)
    walking := fun q other content member pc =>
      queue.walking q other content member (of_update pc nofun)
    sound := ⟨fun q pc => queue.sound.1 q (of_update pc nofun), queue.sound.2⟩ }

theorem IntoQueue.queue_broadcast (here : s.producers p = .broadcast) (queue : Queue s items) :
    Queue { s with
      producers := Function.update s.producers p .outside
      workers := wake s.workers } items := by
  have outside : ¬ (s.producers p).Inside := by rw [here]; exact id
  have stays : linking s.queueLock (Function.update s.producers p .outside) =
      linking s.queueLock s.producers := linking_stepProducer outside id
  exact { queue with
    acquired := queue.acquired.trans (congrArg _ stays.symm)
    size_eq := (congrArg _ (owed_wake.trans (owed_stepProducer outside id))).trans queue.size_eq
    linked := fun entry member => queue.linked entry (stays ▸ member)
    pending := fun q other content pc => queue.pending q other content (of_update pc nofun)
    distinct := fun q r other first second firstPc secondPc =>
      queue.distinct q r other first second (of_update firstPc nofun) (of_update secondPc nofun)
    walking := fun q other content member pc =>
      queue.walking q other content member (of_update pc nofun)
    counted := fun w pc => queue.counted w (pc.imp (of_wake · nofun) (of_wake · nofun))
    taking := fun w pc => queue.taking w (of_wake pc nofun)
    busy := fun w address pc => queue.busy w address (pc.imp (of_wake · nofun) (of_wake · nofun))
    sound := ⟨fun q pc => queue.sound.1 q (of_update pc nofun),
      fun w pc => queue.sound.2 w (of_wake pc nofun)⟩ }

/-- Every statement of `Into_Queue` keeps the queue in order. -/
theorem IntoQueue.queue (step : IntoQueue p s t) (exclusive : s.Exclusive)
    (queue : Queue s items) : ∃ items, Queue t items := by
  cases step with
  | call task here => exact ⟨items, IntoQueue.queue_call here queue⟩
  | lock here free => exact ⟨items, IntoQueue.queue_lock here free queue⟩
  | scan here head =>
      have lock := exclusive.producer p (by rw [here]; trivial)
      have inside := (head ▸ queue.chain).head_mem
      exact ⟨items, IntoQueue.queue_walk lock (Or.inl here) inside queue⟩
  | @scanEmpty node task here head =>
      have lock := exclusive.producer p (by rw [here]; trivial)
      obtain rfl := (head ▸ queue.chain).eq_nil
      have found := queue.linked (node, task) (by simp [linking, lock, here])
      have alone : Chain s.nodes (some node) [(node, task)] := .cons found .nil
      exact ⟨_, IntoQueue.queue_link lock (Or.inl here) alone (fun _ _ => rfl)
        (fun _ content there => ⟨content, there⟩) queue⟩
  | walk here found linked =>
      have lock := exclusive.producer p (by rw [here]; trivial)
      have inside := queue.chain.next_mem (queue.walking p _ _ _ here) found linked
      exact ⟨items, IntoQueue.queue_walk lock (Or.inr ⟨_, here⟩) inside queue⟩
  | @link node member task current here found isLast =>
      have lock := exclusive.producer p (by rw [here]; trivial)
      have inside := queue.walking p node task member here
      have isLinking : (node, task) ∈ linking s.queueLock s.producers := by
        simp [linking, lock, here]
      have newFound := queue.linked (node, task) isLinking
      have fresh : node ∉ items.map Prod.fst := by
        have nodup := queue.nodup
        rw [queue.acquired, queue.logged, List.map_append, List.map_append] at nodup
        intro listed
        exact List.disjoint_of_nodup_append nodup (List.mem_append_right _ listed)
          (List.mem_map.mpr ⟨_, isLinking, rfl⟩)
      have chain := queue.chain.append queue.items_nodup inside found isLast newFound rfl fresh
      refine ⟨_, IntoQueue.queue_link lock (Or.inr ⟨member, here⟩) chain ?_ ?_ queue⟩
      · intro address outside
        refine Function.update_of_ne ?_ _ _
        rintro rfl
        exact outside inside
      · intro address content there
        by_cases same : address = member
        · exact ⟨_, by rw [same, Function.update_self]⟩
        · exact ⟨content, by rw [Function.update_of_ne same, there]⟩
  | lost here missing =>
      obtain ⟨node, found⟩ := queue.chain.node_of_mem (queue.walking p _ _ _ here)
      rw [missing] at found
      cases found
  | count here =>
      have lock := exclusive.producer p (by rw [here]; trivial)
      exact ⟨items, IntoQueue.queue_count here lock queue⟩
  | unlock here =>
      have lock := exclusive.producer p (by rw [here]; trivial)
      exact ⟨items, IntoQueue.queue_unlock here lock queue⟩
  | broadcast here => exact ⟨items, IntoQueue.queue_broadcast here queue⟩

end Producers

/-! ## The steps of a worker -/

section Workers

variable [DecidableEq ω] {s t : State π ω τ} {items : List (Nat × τ)} {w : ω}

/-- A worker goes to another statement, and perhaps takes or leaves the lock,
without touching the queue. -/
theorem CallDoworkThread.queue_move {pc : WorkerPc} {lock : Option (Owner π ω)}
    (owedEq : owed lock s.producers (Function.update s.workers w pc) =
      owed s.queueLock s.producers s.workers)
    (linkingEq : linking lock s.producers = linking s.queueLock s.producers)
    (counted : pc = .checkShutdown ∨ pc = .take → 0 < s.curQueueSize) (free : pc ≠ .takeHead)
    (busy : ∀ address, pc = .unlock address ∨ pc = .work address →
      (∃ task, (w, address, task) ∈ s.handed) ∧ ∃ node, s.nodes address = some node)
    (sound : pc ≠ .crashed) (queue : Queue s items) :
    Queue { s with workers := Function.update s.workers w pc, queueLock := lock } items := by
  have cases {v : ω} {target : WorkerPc} (there : Function.update s.workers w pc v = target) :
      v = w ∧ pc = target ∨ s.workers v = target := by
    by_cases same : v = w
    · rw [same, Function.update_self] at there
      exact Or.inl ⟨same, there⟩
    · rw [Function.update_of_ne same] at there
      exact Or.inr there
  have newCounted (v : ω) (there : Function.update s.workers w pc v = .checkShutdown ∨
      Function.update s.workers w pc v = .take) : 0 < s.curQueueSize := by
    rcases there with there | there <;> rcases cases there with ⟨-, same⟩ | before
    · exact counted (Or.inl same)
    · exact queue.counted v (Or.inl before)
    · exact counted (Or.inr same)
    · exact queue.counted v (Or.inr before)
  have newBusy (v : ω) (address : Nat) (there : Function.update s.workers w pc v = .unlock address ∨
      Function.update s.workers w pc v = .work address) :
      (∃ task, (v, address, task) ∈ s.handed) ∧ ∃ node, s.nodes address = some node := by
    rcases there with there | there <;> rcases cases there with ⟨rfl, same⟩ | before
    · exact busy address (Or.inl same)
    · exact queue.busy v address (Or.inl before)
    · exact busy address (Or.inr same)
    · exact queue.busy v address (Or.inr before)
  exact { queue with
    acquired := queue.acquired.trans (congrArg _ linkingEq.symm)
    size_eq := (congrArg _ owedEq).trans queue.size_eq
    linked := fun entry member => queue.linked entry (linkingEq ▸ member)
    counted := newCounted
    taking := fun v there => queue.taking v (of_update there free)
    busy := newBusy
    sound := ⟨queue.sound.1, fun v there => queue.sound.2 v (of_update there sound)⟩ }

/-- A move that keeps the lock as it is. -/
theorem CallDoworkThread.queue_step {pc : WorkerPc} (before : s.workers w ≠ .takeHead)
    (counted : pc = .checkShutdown ∨ pc = .take → 0 < s.curQueueSize) (free : pc ≠ .takeHead)
    (idle : ∀ address, pc ≠ .unlock address ∧ pc ≠ .work address) (sound : pc ≠ .crashed)
    (queue : Queue s items) :
    Queue { s with workers := Function.update s.workers w pc } items :=
  CallDoworkThread.queue_move (owed_stepWorker before free) rfl counted free
    (fun address there => there.elim (fun there => absurd there (idle address).1)
      fun there => absurd there (idle address).2) sound queue

theorem CallDoworkThread.queue_acquire (free : s.queueLock = none) (queue : Queue s items) :
    Queue { s with
      workers := Function.update s.workers w .testSize
      queueLock := some (.worker w) } items := by
  refine CallDoworkThread.queue_move ?_ ?_ ?_ nofun ?_ nofun queue
  · simp [owed, free]
  · simp [linking, free]
  · rintro (there | there) <;> cases there
  · rintro address (there | there) <;> cases there

theorem CallDoworkThread.queue_release {pc : WorkerPc} (lock : s.queueLock = some (.worker w))
    (before : s.workers w ≠ .takeHead) (after : ¬ pc.Inside)
    (busy : ∀ address, pc = .work address →
      (∃ task, (w, address, task) ∈ s.handed) ∧ ∃ node, s.nodes address = some node)
    (sound : pc ≠ .crashed) (queue : Queue s items) :
    Queue { s with workers := Function.update s.workers w pc, queueLock := none } items := by
  apply CallDoworkThread.queue_move _ _ _ _ _ sound queue
  · simp only [owed, lock]
  · simp only [linking, lock]
  · rintro (rfl | rfl) <;> exact absurd trivial after
  · rintro rfl
    exact after trivial
  · rintro address (rfl | there)
    · exact absurd trivial after
    · exact busy address there

theorem CallDoworkThread.queue_take (here : s.workers w = .take) (exclusive : s.Exclusive)
    (queue : Queue s items) :
    Queue { s with
      workers := Function.update s.workers w .takeHead
      curQueueSize := s.curQueueSize - 1 } items := by
  have lock : s.queueLock = some (.worker w) := exclusive.worker w (by rw [here]; trivial)
  have positive := queue.counted w (Or.inr here)
  have size_eq : s.curQueueSize - 1 + owed s.queueLock s.producers
      (Function.update s.workers w .takeHead) = items.length := by
    have before := queue.size_eq
    have oldOwed : owed s.queueLock s.producers s.workers = 0 := by simp [owed, lock, here]
    have newOwed : owed s.queueLock s.producers (Function.update s.workers w .takeHead) = 1 := by
      simp [owed, lock]
    rw [oldOwed] at before
    rw [newOwed]
    omega
  -- Every other worker that has tested the size holds the lock, too.
  have alone {v : ω} (there : Function.update s.workers w .takeHead v = .checkShutdown ∨
      Function.update s.workers w .takeHead v = .take) : False := by
    have before : s.workers v = .checkShutdown ∨ s.workers v = .take :=
      of_update_or there nofun nofun
    have owner := exclusive.worker v (by rcases before with pc | pc <;> rw [pc] <;> trivial)
    rw [lock] at owner
    cases owner
    rw [Function.update_self] at there
    rcases there with pc | pc <;> cases pc
  exact { queue with
    size_eq := size_eq
    counted := fun v there => (alone there).elim
    taking := fun v there => Int.le_sub_one_of_lt positive
    busy := fun v address there =>
      queue.busy v address (of_update_or there nofun nofun)
    sound := ⟨queue.sound.1, fun v there => queue.sound.2 v (of_update there nofun)⟩ }

theorem CallDoworkThread.queue_takeHead {address : Nat} {node : Node τ}
    {rest : List (Nat × τ)} (here : s.workers w = .takeHead) (exclusive : s.Exclusive)
    (found : s.nodes address = some node) (chain : Chain s.nodes node.next rest)
    (queue : Queue s ((address, node.value) :: rest)) :
    Queue { s with
      workers := Function.update s.workers w (.unlock address)
      queueHead := node.next
      handed := s.handed ++ [(w, address, node.value)] } rest := by
  have lock : s.queueLock = some (.worker w) := exclusive.worker w (by rw [here]; trivial)
  have size_eq : s.curQueueSize + owed s.queueLock s.producers
      (Function.update s.workers w (.unlock address)) = rest.length := by
    have before := queue.size_eq
    have oldOwed : owed s.queueLock s.producers s.workers = 1 := by simp [owed, lock, here]
    have newOwed : owed s.queueLock s.producers
        (Function.update s.workers w (.unlock address)) = 0 := by
      simp [owed, lock]
    rw [oldOwed, List.length_cons] at before
    rw [newOwed]
    omega
  have walking (p : π) (other : Nat) (task : τ) (member : Nat)
      (there : s.producers p = .walk other task member) : member ∈ rest.map Prod.fst := by
    have owner := exclusive.producer p (by rw [there]; trivial)
    rw [lock] at owner
    cases owner
  have busy (v : ω) (other : Nat)
      (there : Function.update s.workers w (.unlock address) v = .unlock other ∨
        Function.update s.workers w (.unlock address) v = .work other) :
      (∃ task, (v, other, task) ∈ s.handed ++ [(w, address, node.value)]) ∧
        ∃ content, s.nodes other = some content := by
    by_cases same : v = w
    · subst same
      rw [Function.update_self] at there
      rcases there with there | there <;> cases there
      exact ⟨⟨node.value, by simp⟩, node, found⟩
    · rw [Function.update_of_ne same] at there
      obtain ⟨⟨task, given⟩, content⟩ := queue.busy v other there
      exact ⟨⟨task, List.mem_append_left _ given⟩, content⟩
  exact { queue with
    chain := chain
    logged := by rw [queue.logged, List.map_append, List.append_assoc]; rfl
    size_eq := size_eq
    walking := walking
    counted := fun v there =>
      queue.counted v (of_update_or there nofun nofun)
    taking := fun v there => queue.taking v (of_update there nofun)
    busy := busy
    sound := ⟨queue.sound.1, fun v there => queue.sound.2 v (of_update there nofun)⟩ }

theorem CallDoworkThread.queue_work {address : Nat} (here : s.workers w = .work address)
    (queue : Queue s items) :
    Queue { s with
      workers := Function.update s.workers w .lock
      nodes := Function.update s.nodes address none } items := by
  obtain ⟨⟨task, given⟩, -⟩ := queue.busy w address (Or.inr here)
  have kept {other : Nat} (different : other ≠ address) :
      Function.update s.nodes address none other = s.nodes other :=
    Function.update_of_ne different _ _
  have stays : owed s.queueLock s.producers (Function.update s.workers w .lock) =
      owed s.queueLock s.producers s.workers := by
    refine owed_stepWorker ?_ nofun
    rw [here]
    nofun
  have notLinking {entry : Nat × τ} (member : entry ∈ linking s.queueLock s.producers) :
      entry.1 ≠ address := by
    rintro rfl
    have nodup := queue.nodup
    rw [queue.acquired, queue.logged, List.map_append, List.map_append, List.map_map] at nodup
    exact List.disjoint_of_nodup_append nodup
      (List.mem_append_left _ (List.mem_map.mpr ⟨_, given, rfl⟩))
      (List.mem_map.mpr ⟨_, member, rfl⟩)
  have unused (other : Nat) (later : s.fresh ≤ other) :
      Function.update s.nodes address none other = none := by
    by_cases same : other = address
    · rw [same, Function.update_self]
    · rw [kept same, queue.unused other later]
  have pending (p : π) (other : Nat) (content : τ)
      (there : s.producers p = .lock other content) :
      Function.update s.nodes address none other = some ⟨content, none⟩ ∧
        other ∉ s.acquired.map Prod.fst := by
    obtain ⟨found, absent⟩ := queue.pending p other content there
    have different : other ≠ address := by
      rintro rfl
      exact absent (queue.handed_sub given)
    exact ⟨(kept different).trans found, absent⟩
  have busy (v : ω) (other : Nat) (there : Function.update s.workers w .lock v = .unlock other ∨
      Function.update s.workers w .lock v = .work other) :
      (∃ task, (v, other, task) ∈ s.handed) ∧
        ∃ content, Function.update s.nodes address none other = some content := by
    have before : s.workers v = .unlock other ∨ s.workers v = .work other :=
      of_update_or there nofun nofun
    obtain ⟨⟨otherTask, otherGiven⟩, content, found⟩ := queue.busy v other before
    have different : other ≠ address := by
      rintro rfl
      obtain rfl := queue.handed_unique otherGiven given
      rw [Function.update_self] at there
      rcases there with pc | pc <;> cases pc
    exact ⟨⟨otherTask, otherGiven⟩, content, (kept different).trans found⟩
  exact { queue with
    chain := queue.chain.update (queue.not_mem_of_handed given)
    size_eq := (congrArg _ stays).trans queue.size_eq
    unused := unused
    linked := fun entry member => (kept (notLinking member)).trans (queue.linked entry member)
    pending := pending
    counted := fun v there =>
      queue.counted v (of_update_or there nofun nofun)
    taking := fun v there => queue.taking v (of_update there nofun)
    busy := busy
    sound := ⟨queue.sound.1, fun v there => queue.sound.2 v (of_update there nofun)⟩ }

/-- Every statement of `Call_Dowork_Thread` keeps the queue in order as long as
nobody shuts the pool down. -/
theorem CallDoworkThread.queue (step : CallDoworkThread w s t) (exclusive : s.Exclusive)
    (running : s.shutdown = false) (queue : Queue s items) : ∃ items, Queue t items := by
  cases step with
  | lock here free => exact ⟨items, CallDoworkThread.queue_acquire free queue⟩
  | relock here free => exact ⟨items, CallDoworkThread.queue_acquire free queue⟩
  | sizeZero here zero =>
      exact ⟨items, CallDoworkThread.queue_step (by rw [here]; nofun) nofun nofun
        (fun _ => ⟨nofun, nofun⟩) nofun queue⟩
  | sizeNonzero here nonzero =>
      have lock : s.queueLock = some (.worker w) := exclusive.worker w (by rw [here]; trivial)
      have size_eq := queue.size_eq
      have owedZero : owed s.queueLock s.producers s.workers = 0 := by simp [owed, lock, here]
      rw [owedZero] at size_eq
      exact ⟨items, CallDoworkThread.queue_step (by rw [here]; nofun) (fun _ => by omega) nofun
        (fun _ => ⟨nofun, nofun⟩) nofun queue⟩
  | keepWaiting here _ =>
      exact ⟨items, CallDoworkThread.queue_step (by rw [here]; nofun) nofun nofun
        (fun _ => ⟨nofun, nofun⟩) nofun queue⟩
  | stopWaiting here stopped =>
      rw [running] at stopped
      cases stopped
  | enterWait here =>
      have lock : s.queueLock = some (.worker w) := exclusive.worker w (by rw [here]; trivial)
      exact ⟨items, CallDoworkThread.queue_release lock (by rw [here]; nofun) id nofun nofun
        queue⟩
  | spurious here =>
      exact ⟨items, CallDoworkThread.queue_step (by rw [here]; nofun) nofun nofun
        (fun _ => ⟨nofun, nofun⟩) nofun queue⟩
  | shutdown here stopped =>
      rw [running] at stopped
      cases stopped
  | exit here =>
      have lock : s.queueLock = some (.worker w) := exclusive.worker w (by rw [here]; trivial)
      exact ⟨items, CallDoworkThread.queue_release lock (by rw [here]; nofun) id nofun nofun
        queue⟩
  | goOn here _ =>
      exact ⟨items, CallDoworkThread.queue_step (by rw [here]; nofun)
        (fun _ => queue.counted w (Or.inl here)) nofun (fun _ => ⟨nofun, nofun⟩) nofun queue⟩
  | take here => exact ⟨items, CallDoworkThread.queue_take here exclusive queue⟩
  | takeHead here head found =>
      have chain := head ▸ queue.chain
      cases chain with
      | cons firstFound rest =>
          obtain rfl := Option.some.inj (firstFound.symm.trans found)
          exact ⟨_, CallDoworkThread.queue_takeHead here exclusive found rest queue⟩
  | nullHead here missing =>
      have lock : s.queueLock = some (.worker w) := exclusive.worker w (by rw [here]; trivial)
      have size_eq := queue.size_eq
      have owedOne : owed s.queueLock s.producers s.workers = 1 := by simp [owed, lock, here]
      have nonneg := queue.taking w here
      rw [owedOne] at size_eq
      have chain := queue.chain
      cases head : s.queueHead with
      | none =>
          rw [head] at chain
          rw [chain.eq_nil] at size_eq
          simp at size_eq
          omega
      | some address =>
          rw [head] at chain
          cases chain with
          | cons found rest => exact absurd found (missing address _ head)
  | unlock here =>
      have lock : s.queueLock = some (.worker w) := exclusive.worker w (by rw [here]; trivial)
      refine ⟨items, CallDoworkThread.queue_release lock (by rw [here]; nofun) id ?_ nofun queue⟩
      rintro address there
      cases there
      exact queue.busy w _ (Or.inl here)
  | work here found => exact ⟨items, CallDoworkThread.queue_work here queue⟩
  | lost here missing =>
      obtain ⟨-, node, found⟩ := queue.busy w _ (Or.inr here)
      rw [missing] at found
      cases found

end Workers

/-! ## Whole runs -/

section Runs

variable [DecidableEq π] [DecidableEq ω] {s : State π ω τ}

theorem Reachable.queue (reached : Reachable s) :
    s.Exclusive ∧ s.shutdown = false ∧ ∃ items, Queue s items := by
  induction reached with
  | init => exact ⟨exclusive_init, rfl, [], queue_init⟩
  | step before step ih =>
      obtain ⟨exclusive, running, items, queue⟩ := ih
      refine ⟨step.exclusive exclusive, step.shutdown_eq.trans running, ?_⟩
      cases step with
      | producer p step => exact step.queue exclusive queue
      | worker w step => exact step.queue exclusive running queue

end Runs

end FrameCode.ThreadPool
