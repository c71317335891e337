import FrameCode.ThreadPoolShutdown
import Mathlib.Logic.Relation

/-!
# Tearing the thread pool down

After its broadcast `threadpool_destroy` joins the producers, joins the workers,
frees the nodes that are still in the list, and frees the pool.  No lock is taken
any more, so all of this rests on the joins: no thread that could touch the pool
is left, and the nodes in the list are the only ones in the heap.
-/

namespace FrameCode.ThreadPool

open LinkedList

variable {π ω τ : Type}

/-- Where the main thread stands in `threadpool_destroy` from its first
`pthread_join` on. -/
inductive TeardownPc
  | joinAdd
  | joinDo
  | drain
  | freed
  | crashed

/-- The pool with the producers whose thread function has returned.  The list
`dropped` records the tasks whose nodes were freed in the list. -/
structure Process (π ω τ : Type) where
  pool : State π ω τ
  finished : π → Bool
  teardown : TeardownPc
  dropped : List (Nat × τ)

def processInit : Process π ω τ where
  pool := threadPoolInit
  finished _ := false
  teardown := .joinAdd
  dropped := []

section Steps

variable [DecidableEq π] [DecidableEq ω]

/-- A step of a producer or a worker.  A producer outside of `Into_Queue` may
return from its thread function. -/
inductive ThreadStep : Process π ω τ → Process π ω τ → Prop
  | producer {s : Process π ω τ} {t : State π ω τ} (p : π) (running : s.finished p = false)
      (step : IntoQueue p s.pool t) : ThreadStep s { s with pool := t }
  | worker {s : Process π ω τ} {t : State π ω τ} (w : ω) (step : CallDoworkThread w s.pool t) :
      ThreadStep s { s with pool := t }
  | finish {s : Process π ω τ} (p : π) (running : s.finished p = false)
      (here : s.pool.producers p = .outside) :
      ThreadStep s { s with finished := Function.update s.finished p true }

/-- The statements of `threadpool_destroy` after its broadcast: the two loops of
`pthread_join`, the loop that frees the list, and the end. -/
inductive TeardownStep : Process π ω τ → Process π ω τ → Prop
  | joinAdd {s : Process π ω τ} (here : s.teardown = .joinAdd)
      (called : s.pool.destroyer = .join) (joined : ∀ p, s.finished p = true) :
      TeardownStep s { s with teardown := .joinDo }
  | joinDo {s : Process π ω τ} (here : s.teardown = .joinDo)
      (joined : ∀ w, s.pool.workers w = .exited) : TeardownStep s { s with teardown := .drain }
  | release {s : Process π ω τ} {address : Nat} {node : Node τ} (here : s.teardown = .drain)
      (head : s.pool.queueHead = some address) (found : s.pool.nodes address = some node) :
      TeardownStep s { s with
        pool := { s.pool with
          queueHead := node.next
          nodes := Function.update s.pool.nodes address none }
        dropped := s.dropped ++ [(address, node.value)] }
  | lost {s : Process π ω τ} {address : Nat} (here : s.teardown = .drain)
      (head : s.pool.queueHead = some address) (missing : s.pool.nodes address = none) :
      TeardownStep s { s with teardown := .crashed }
  | free {s : Process π ω τ} (here : s.teardown = .drain) (empty : s.pool.queueHead = none) :
      TeardownStep s { s with teardown := .freed }

inductive ProcessStep : Process π ω τ → Process π ω τ → Prop
  | thread {s t : Process π ω τ} (step : ThreadStep s t) : ProcessStep s t
  | destroy {s : Process π ω τ} {t : State π ω τ} (step : ThreadpoolDestroy s.pool t) :
      ProcessStep s { s with pool := t }
  | teardown {s t : Process π ω τ} (step : TeardownStep s t) : ProcessStep s t

/-- The states of the process in all runs of its threads. -/
inductive ProcessReachable : Process π ω τ → Prop
  | init : ProcessReachable processInit
  | step {s t : Process π ω τ} (before : ProcessReachable s) (step : ProcessStep s t) :
      ProcessReachable t

end Steps

/-! ## What holds in each phase -/

/-- After the joins the main thread is alone with the list. -/
structure Alone (s : Process π ω τ) (items : List (Nat × τ)) : Prop where
  exited : ∀ w, s.pool.workers w = .exited
  chain : Chain s.pool.nodes s.pool.queueHead items
  logged : s.pool.inserted = s.pool.handed.map Prod.snd ++ s.dropped ++ items
  acquired : s.pool.acquired = s.pool.inserted
  nodup : (s.pool.inserted.map Prod.fst).Nodup
  owned : ∀ address node, s.pool.nodes address = some node → address ∈ items.map Prod.fst

structure Phases (s : Process π ω τ) : Prop where
  outside : ∀ p, s.finished p = true → s.pool.producers p = .outside
  joining : s.teardown = .joinAdd ∨ s.teardown = .joinDo → Sound s.pool ∧ s.dropped = []
  joined : s.teardown ≠ .joinAdd →
    s.pool.destroyer = .join ∧ ∀ p, s.finished p = true
  alone : s.teardown = .drain ∨ s.teardown = .freed → ∃ items, Alone s items
  empty : s.teardown = .freed → s.pool.queueHead = none
  sound : s.teardown ≠ .crashed

theorem phases_init : Phases (processInit : Process π ω τ) where
  outside _ finished := by cases finished
  joining _ := ⟨sound_init, rfl⟩
  joined other := absurd rfl other
  alone := nofun
  empty := nofun
  sound := nofun

/-- The last join leaves the main thread alone with the list. -/
theorem Sound.alone {s : Process π ω τ} (sound : Sound s.pool) (dropped : s.dropped = [])
    (outside : ∀ p, s.pool.producers p = .outside)
    (exited : ∀ w, s.pool.workers w = .exited) : ∃ items, Alone s items := by
  obtain ⟨items, queue, acquired, owned⟩ := sound.owned outside fun w address => by
    rw [exited w]
    exact ⟨nofun, nofun⟩
  refine ⟨items, exited, queue.chain, ?_, acquired, ?_, owned⟩
  · rw [dropped, List.append_nil]
    exact queue.logged
  · rw [← acquired]
    exact queue.nodup

/-- The loop frees the first node of the list. -/
theorem Alone.release {s : Process π ω τ} {address : Nat} {node : Node τ}
    {items : List (Nat × τ)} (alone : Alone s items) (head : s.pool.queueHead = some address)
    (found : s.pool.nodes address = some node) :
    ∃ rest, items = (address, node.value) :: rest ∧
      Alone { s with
        pool := { s.pool with
          queueHead := node.next
          nodes := Function.update s.pool.nodes address none }
        dropped := s.dropped ++ [(address, node.value)] } rest := by
  have chain := head ▸ alone.chain
  cases chain with
  | @cons _ first rest firstFound tail =>
      obtain rfl : first = node := Option.some.inj (firstFound.symm.trans found)
      have absent : address ∉ rest.map Prod.fst := by
        have nodup := alone.nodup
        rw [alone.logged, List.map_append] at nodup
        exact (List.nodup_cons.mp nodup.of_append_right).1
      refine ⟨rest, rfl, alone.exited, tail.update absent, ?_, alone.acquired, alone.nodup, ?_⟩
      · simp [alone.logged]
      · intro other content there
        dsimp only at there
        have different : other ≠ address := by
          rintro rfl
          rw [Function.update_self] at there
          cases there
        rw [Function.update_of_ne different] at there
        exact (List.mem_cons.mp (alone.owned other content there)).resolve_left different

section Runs

variable [DecidableEq π] [DecidableEq ω] {s t : Process π ω τ}

/-- After the joins no thread but the main one can move. -/
theorem Phases.no_thread (phases : Phases s)
    (joined : s.teardown = .drain ∨ s.teardown = .freed) : ¬ ThreadStep s t := by
  obtain ⟨items, alone⟩ := phases.alone joined
  have later : s.teardown ≠ .joinAdd := by rcases joined with here | here <;> rw [here] <;> nofun
  have finished := (phases.joined later).2
  intro step
  cases step with
  | producer p running step =>
      rw [finished p] at running
      cases running
  | worker w step =>
      have exited := alone.exited w
      cases step <;> simp_all
  | finish p running here =>
      rw [finished p] at running
      cases running

theorem ThreadStep.phases (step : ThreadStep s t) (phases : Phases s) : Phases t := by
  have running : ¬ (s.teardown = .drain ∨ s.teardown = .freed) := fun joined =>
    phases.no_thread joined step
  cases step with
  | @producer pool p unfinished step =>
      have kept (q : π) (finished : s.finished q = true) : pool.producers q = .outside := by
        have other : q ≠ p := by
          rintro rfl
          rw [finished] at unfinished
          cases unfinished
        have before := phases.outside q finished
        cases step <;> simp [Function.update_of_ne other, before]
      have destroyer : pool.destroyer = s.pool.destroyer := by cases step <;> rfl
      refine ⟨kept, fun joining => ?_, fun later => ?_, fun joined => absurd joined running,
        fun freed => absurd (Or.inr freed) running, phases.sound⟩
      · obtain ⟨sound, dropped⟩ := phases.joining joining
        exact ⟨(Step.producer p step).sound sound, dropped⟩
      · rw [destroyer]
        exact phases.joined later
  | @worker pool w step =>
      have producers : pool.producers = s.pool.producers := by cases step <;> rfl
      have destroyer : pool.destroyer = s.pool.destroyer := by cases step <;> rfl
      refine ⟨fun q finished => ?_, fun joining => ?_, fun later => ?_,
        fun joined => absurd joined running, fun freed => absurd (Or.inr freed) running,
        phases.sound⟩
      · rw [producers]
        exact phases.outside q finished
      · obtain ⟨sound, dropped⟩ := phases.joining joining
        exact ⟨(Step.worker w step).sound sound, dropped⟩
      · rw [destroyer]
        exact phases.joined later
  | finish p unfinished here =>
      refine ⟨fun q finished => ?_, phases.joining, fun later => ?_,
        fun joined => absurd joined running, fun freed => absurd (Or.inr freed) running,
        phases.sound⟩
      · by_cases same : q = p
        · rw [same, here]
        · dsimp only at finished
          rw [Function.update_of_ne same] at finished
          exact phases.outside q finished
      · have finished := (phases.joined later).2 p
        rw [unfinished] at finished
        cases finished

omit [DecidableEq π] [DecidableEq ω] in
theorem TeardownStep.phases (step : TeardownStep s t) (phases : Phases s) : Phases t := by
  cases step with
  | joinAdd here called joined =>
      exact ⟨phases.outside, fun _ => phases.joining (Or.inl here), fun _ => ⟨called, joined⟩,
        nofun, nofun, nofun⟩
  | joinDo here joined =>
      obtain ⟨sound, dropped⟩ := phases.joining (Or.inr here)
      have finished := phases.joined (by rw [here]; nofun)
      obtain ⟨items, alone⟩ :=
        sound.alone dropped (fun p => phases.outside p (finished.2 p)) joined
      exact ⟨phases.outside, nofun, fun _ => finished, fun _ => ⟨items, { alone with
        exited := alone.exited }⟩, nofun, nofun⟩
  | release here head found =>
      have finished := phases.joined (by rw [here]; nofun)
      obtain ⟨items, alone⟩ := phases.alone (Or.inl here)
      obtain ⟨rest, -, alone⟩ := alone.release head found
      refine ⟨phases.outside, ?_, fun _ => finished, fun _ => ⟨rest, alone⟩, ?_, phases.sound⟩
      · rw [here]
        nofun
      · rw [here]
        nofun
  | lost here head missing =>
      obtain ⟨items, alone⟩ := phases.alone (Or.inl here)
      obtain ⟨node, found⟩ := alone.chain.node_of_mem (head ▸ alone.chain).head_mem
      rw [missing] at found
      cases found
  | free here empty =>
      have finished := phases.joined (by rw [here]; nofun)
      obtain ⟨items, alone⟩ := phases.alone (Or.inl here)
      exact ⟨phases.outside, nofun, fun _ => finished, fun _ => ⟨items, { alone with
        exited := alone.exited }⟩, fun _ => empty, nofun⟩

theorem ProcessReachable.phases (reached : ProcessReachable s) : Phases s := by
  induction reached with
  | init => exact phases_init
  | @step s t before step ih =>
      cases step with
      | thread step => exact step.phases ih
      | teardown step => exact step.phases ih
      | @destroy pool step =>
          -- The three statements before the joins are over once a join has returned.
          have early : s.teardown = .joinAdd ∨ s.teardown = .crashed := by
            by_contra later
            rw [not_or] at later
            have called := (ih.joined later.1).1
            cases step with
            | refuse here | shutdown here | broadcast here =>
                rw [called] at here
                cases here
          have joining := early.resolve_right ih.sound
          have producers : pool.producers = s.pool.producers := by cases step <;> rfl
          obtain ⟨sound, dropped⟩ := ih.joining (Or.inl joining)
          refine ⟨fun p finished => ?_, fun _ => ⟨step.sound sound, dropped⟩,
            fun later => absurd joining later, ?_, ?_, ih.sound⟩
          · rw [producers]
            exact ih.outside p finished
          · rw [joining]
            nofun
          · rw [joining]
            nofun

omit [DecidableEq π] [DecidableEq ω] in
/-- The loop that frees the list comes to its end. -/
theorem Alone.drains {items : List (Nat × τ)} (alone : Alone s items)
    (here : s.teardown = .drain) :
    ∃ t, Relation.ReflTransGen TeardownStep s t ∧ t.teardown = .freed := by
  induction items generalizing s with
  | nil =>
      have empty : s.pool.queueHead = none := by
        have chain := alone.chain
        cases head : s.pool.queueHead with
        | none => rfl
        | some address =>
            rw [head] at chain
            cases chain
      exact ⟨_, .single (.free here empty), rfl⟩
  | cons item rest ih =>
      have chain := alone.chain
      cases head : s.pool.queueHead with
      | none =>
          rw [head] at chain
          cases chain
      | some address =>
          rw [head] at chain
          cases chain with
          | cons found tail =>
              obtain ⟨rest, same, after⟩ := alone.release head found
              obtain rfl := (List.cons.inj same).2
              obtain ⟨t, steps, freed⟩ := ih after here
              exact ⟨t, .head (.release here head found) steps, freed⟩

omit [DecidableEq π] [DecidableEq ω] in
/-- What a reachable process knows about its tasks: those inserted are those handed
out, those dropped and those in the list, in this order. -/
theorem Phases.logged (phases : Phases s) :
    (∃ items, Chain s.pool.nodes s.pool.queueHead items ∧
      s.pool.inserted = s.pool.handed.map Prod.snd ++ s.dropped ++ items) ∧
    (s.pool.inserted.map Prod.fst).Nodup ∧
    (∀ p, s.pool.producers p ≠ .crashed) ∧ ∀ w, s.pool.workers w ≠ .crashed := by
  by_cases joined : s.teardown = .drain ∨ s.teardown = .freed
  · obtain ⟨items, alone⟩ := phases.alone joined
    have finished := phases.joined (by rcases joined with here | here <;> rw [here] <;> nofun)
    refine ⟨⟨items, alone.chain, alone.logged⟩, alone.nodup, fun p => ?_, fun w => ?_⟩
    · rw [phases.outside p (finished.2 p)]
      nofun
    · rw [alone.exited w]
      nofun
  · have joining : s.teardown = .joinAdd ∨ s.teardown = .joinDo := by
      have sound := phases.sound
      cases here : s.teardown <;> simp_all
    obtain ⟨sound, dropped⟩ := phases.joining joining
    obtain ⟨items, ordered⟩ := sound.ordered
    have queue := ordered.queue
    have inserted : s.pool.inserted <+: s.pool.acquired := ⟨_, queue.acquired.symm⟩
    refine ⟨⟨items, queue.chain, ?_⟩, ?_, sound.producer_ne_crashed, sound.worker_ne_crashed⟩
    · rw [dropped, List.append_nil]
      exact queue.logged
    · exact queue.nodup.sublist (inserted.map Prod.fst).sublist

end Runs

end FrameCode.ThreadPool
