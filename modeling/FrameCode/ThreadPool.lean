import FrameCode.LinkedList

/-!
# The thread pool

The threads of `Frame_ThreadPool` around the task queue: producers in
`Into_Queue`, workers in `Call_Dowork_Thread` and the main thread in
`threadpool_destroy`.  Each thread is at one of the statements of its function,
and a step of the pool executes one statement of one thread.  A step that would
follow a pointer to no node takes its thread to `crashed`.

The lists `acquired`, `inserted` and `handed` only record what has happened: the
tasks in the order in which their insertions took the lock, the tasks linked
into the list, and the tasks handed to workers.
-/

namespace FrameCode.ThreadPool

open LinkedList

/-- Where a producer stands in `Into_Queue`, with its locals `pNewWorker`,
`pPoint_Task` and `pMember`. -/
inductive ProducerPc (τ : Type)
  | outside
  | lock (node : Nat) (task : τ)
  | scan (node : Nat) (task : τ)
  | walk (node : Nat) (task : τ) (member : Nat)
  | count
  | unlock
  | broadcast
  | crashed

/-- Where a worker stands in `Call_Dowork_Thread`, with its local `pWorker`. -/
inductive WorkerPc
  | lock
  | testSize
  | testShutdown
  | enterWait
  | waiting
  | woken
  | checkShutdown
  | exitUnlock
  | exited
  | take
  | takeHead
  | unlock (node : Nat)
  | work (node : Nat)
  | crashed

/-- Where the main thread stands in `threadpool_destroy`. -/
inductive DestroyPc
  | ready
  | broadcast
  | join
  | refused

inductive Owner (π ω : Type)
  | producer (p : π)
  | worker (w : ω)

/-- The pool and its threads, for any sets `π` of producers and `ω` of workers. -/
structure State (π ω τ : Type) where
  queueLock : Option (Owner π ω)
  queueHead : Option Nat
  curQueueSize : Int
  shutdown : Bool
  nodes : Nat → Option (Node τ)
  fresh : Nat
  producers : π → ProducerPc τ
  workers : ω → WorkerPc
  destroyer : DestroyPc
  acquired : List (Nat × τ)
  inserted : List (Nat × τ)
  handed : List (ω × Nat × τ)

variable {π ω τ : Type}

/-- `ThreadPool_Init`: an empty pool whose threads are about to start. -/
def threadPoolInit : State π ω τ where
  queueLock := none
  queueHead := none
  curQueueSize := 0
  shutdown := false
  nodes _ := none
  fresh := 0
  producers _ := .outside
  workers _ := .lock
  destroyer := .ready
  acquired := []
  inserted := []
  handed := []

/-- `pthread_cond_broadcast` on `queue_ready_F`. -/
def wake (workers : ω → WorkerPc) (w : ω) : WorkerPc :=
  match workers w with
  | .waiting => .woken
  | pc => pc

section Steps

variable [DecidableEq π] [DecidableEq ω]

/-- The statements of `Into_Queue`, executed by one producer. -/
inductive IntoQueue (p : π) : State π ω τ → State π ω τ → Prop
  | call {s : State π ω τ} (task : τ) (here : s.producers p = .outside) :
      IntoQueue p s { s with
        producers := Function.update s.producers p (.lock s.fresh task)
        nodes := Function.update s.nodes s.fresh (some ⟨task, none⟩)
        fresh := s.fresh + 1 }
  | lock {s : State π ω τ} {node : Nat} {task : τ} (here : s.producers p = .lock node task)
      (free : s.queueLock = none) :
      IntoQueue p s { s with
        producers := Function.update s.producers p (.scan node task)
        queueLock := some (.producer p)
        acquired := s.acquired ++ [(node, task)] }
  | scan {s : State π ω τ} {node member : Nat} {task : τ}
      (here : s.producers p = .scan node task) (head : s.queueHead = some member) :
      IntoQueue p s { s with producers := Function.update s.producers p (.walk node task member) }
  | scanEmpty {s : State π ω τ} {node : Nat} {task : τ}
      (here : s.producers p = .scan node task) (head : s.queueHead = none) :
      IntoQueue p s { s with
        producers := Function.update s.producers p .count
        queueHead := some node
        inserted := s.inserted ++ [(node, task)] }
  | walk {s : State π ω τ} {node member next : Nat} {task : τ} {current : Node τ}
      (here : s.producers p = .walk node task member) (found : s.nodes member = some current)
      (linked : current.next = some next) :
      IntoQueue p s { s with producers := Function.update s.producers p (.walk node task next) }
  | link {s : State π ω τ} {node member : Nat} {task : τ} {current : Node τ}
      (here : s.producers p = .walk node task member) (found : s.nodes member = some current)
      (isLast : current.next = none) :
      IntoQueue p s { s with
        producers := Function.update s.producers p .count
        nodes := Function.update s.nodes member (some { current with next := some node })
        inserted := s.inserted ++ [(node, task)] }
  | lost {s : State π ω τ} {node member : Nat} {task : τ}
      (here : s.producers p = .walk node task member) (missing : s.nodes member = none) :
      IntoQueue p s { s with producers := Function.update s.producers p .crashed }
  | count {s : State π ω τ} (here : s.producers p = .count) :
      IntoQueue p s { s with
        producers := Function.update s.producers p .unlock
        curQueueSize := s.curQueueSize + 1 }
  | unlock {s : State π ω τ} (here : s.producers p = .unlock) :
      IntoQueue p s { s with
        producers := Function.update s.producers p .broadcast
        queueLock := none }
  | broadcast {s : State π ω τ} (here : s.producers p = .broadcast) :
      IntoQueue p s { s with
        producers := Function.update s.producers p .outside
        workers := wake s.workers }

/-- The statements of `Call_Dowork_Thread`, executed by one worker.  A worker
that waits may wake up without a broadcast. -/
inductive CallDoworkThread (w : ω) : State π ω τ → State π ω τ → Prop
  | lock {s : State π ω τ} (here : s.workers w = .lock) (free : s.queueLock = none) :
      CallDoworkThread w s { s with
        workers := Function.update s.workers w .testSize
        queueLock := some (.worker w) }
  | sizeZero {s : State π ω τ} (here : s.workers w = .testSize) (zero : s.curQueueSize = 0) :
      CallDoworkThread w s { s with workers := Function.update s.workers w .testShutdown }
  | sizeNonzero {s : State π ω τ} (here : s.workers w = .testSize)
      (nonzero : s.curQueueSize ≠ 0) :
      CallDoworkThread w s { s with workers := Function.update s.workers w .checkShutdown }
  | keepWaiting {s : State π ω τ} (here : s.workers w = .testShutdown)
      (running : s.shutdown = false) :
      CallDoworkThread w s { s with workers := Function.update s.workers w .enterWait }
  | stopWaiting {s : State π ω τ} (here : s.workers w = .testShutdown)
      (stopped : s.shutdown = true) :
      CallDoworkThread w s { s with workers := Function.update s.workers w .checkShutdown }
  | enterWait {s : State π ω τ} (here : s.workers w = .enterWait) :
      CallDoworkThread w s { s with
        workers := Function.update s.workers w .waiting
        queueLock := none }
  | spurious {s : State π ω τ} (here : s.workers w = .waiting) :
      CallDoworkThread w s { s with workers := Function.update s.workers w .woken }
  | relock {s : State π ω τ} (here : s.workers w = .woken) (free : s.queueLock = none) :
      CallDoworkThread w s { s with
        workers := Function.update s.workers w .testSize
        queueLock := some (.worker w) }
  | shutdown {s : State π ω τ} (here : s.workers w = .checkShutdown)
      (stopped : s.shutdown = true) :
      CallDoworkThread w s { s with workers := Function.update s.workers w .exitUnlock }
  | exit {s : State π ω τ} (here : s.workers w = .exitUnlock) :
      CallDoworkThread w s { s with
        workers := Function.update s.workers w .exited
        queueLock := none }
  | goOn {s : State π ω τ} (here : s.workers w = .checkShutdown)
      (running : s.shutdown = false) :
      CallDoworkThread w s { s with workers := Function.update s.workers w .take }
  | take {s : State π ω τ} (here : s.workers w = .take) :
      CallDoworkThread w s { s with
        workers := Function.update s.workers w .takeHead
        curQueueSize := s.curQueueSize - 1 }
  | takeHead {s : State π ω τ} {address : Nat} {node : Node τ} (here : s.workers w = .takeHead)
      (head : s.queueHead = some address) (found : s.nodes address = some node) :
      CallDoworkThread w s { s with
        workers := Function.update s.workers w (.unlock address)
        queueHead := node.next
        handed := s.handed ++ [(w, address, node.value)] }
  | nullHead {s : State π ω τ} (here : s.workers w = .takeHead)
      (missing : ∀ address node, s.queueHead = some address → s.nodes address ≠ some node) :
      CallDoworkThread w s { s with workers := Function.update s.workers w .crashed }
  | unlock {s : State π ω τ} {node : Nat} (here : s.workers w = .unlock node) :
      CallDoworkThread w s { s with
        workers := Function.update s.workers w (.work node)
        queueLock := none }
  | work {s : State π ω τ} {address : Nat} {node : Node τ} (here : s.workers w = .work address)
      (found : s.nodes address = some node) :
      CallDoworkThread w s { s with
        workers := Function.update s.workers w .lock
        nodes := Function.update s.nodes address none }
  | lost {s : State π ω τ} {address : Nat} (here : s.workers w = .work address)
      (missing : s.nodes address = none) :
      CallDoworkThread w s { s with workers := Function.update s.workers w .crashed }

/-- A step of a producer or a worker. -/
inductive Step : State π ω τ → State π ω τ → Prop
  | producer {s t : State π ω τ} (p : π) (step : IntoQueue p s t) : Step s t
  | worker {s t : State π ω τ} (w : ω) (step : CallDoworkThread w s t) : Step s t

/-- The states of a pool that nobody destroys. -/
inductive Reachable : State π ω τ → Prop
  | init : Reachable threadPoolInit
  | step {s t : State π ω τ} (before : Reachable s) (step : Step s t) : Reachable t

/-- The statements of `threadpool_destroy` up to its first `pthread_join`. -/
inductive ThreadpoolDestroy : State π ω τ → State π ω τ → Prop
  | refuse {s : State π ω τ} (here : s.destroyer = .ready) (stopped : s.shutdown = true) :
      ThreadpoolDestroy s { s with destroyer := .refused }
  | shutdown {s : State π ω τ} (here : s.destroyer = .ready) (running : s.shutdown = false) :
      ThreadpoolDestroy s { s with shutdown := true, destroyer := .broadcast }
  | broadcast {s : State π ω τ} (here : s.destroyer = .broadcast) :
      ThreadpoolDestroy s { s with workers := wake s.workers, destroyer := .join }

/-- A step of any thread of the process. -/
inductive PoolStep : State π ω τ → State π ω τ → Prop
  | thread {s t : State π ω τ} (step : Step s t) : PoolStep s t
  | destroy {s t : State π ω τ} (step : ThreadpoolDestroy s t) : PoolStep s t

end Steps

end FrameCode.ThreadPool
