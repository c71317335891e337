import FrameCode.AsynccomStream
import Mathlib.Logic.Relation

/-!
# The transactions of the message server

The server has one thread, so the messages of all its connections reach
`HandleTransaction` one after another.  The state that the transactions work on is
what this order makes of it.
-/

namespace FrameCode.AsynccomServer

open StreamFraming

variable {σ : Type} {getMessageLength : List UInt8 → Int}
variable {handleTransaction : σ → List UInt8 → σ × Int} {headerLength : Nat}

/-- The effect of a list of transactions, one after another. -/
def transact (handleTransaction : σ → List UInt8 → σ × Int) (world : σ)
    (messages : List (List UInt8)) : σ :=
  messages.foldl (fun world message => (handleTransaction world message).1) world

/-- The messages of a list of transactions with their outcomes. -/
def outcomes (handleTransaction : σ → List UInt8 → σ × Int) :
    σ → List (List UInt8) → List (List UInt8 × Bool)
  | _, [] => []
  | world, message :: later =>
      let outcome := handleTransaction world message
      (message, decide (0 ≤ outcome.2)) :: outcomes handleTransaction outcome.1 later

theorem transact_cons (world : σ) (message : List UInt8) (later : List (List UInt8)) :
    transact handleTransaction world (message :: later) =
      transact handleTransaction (handleTransaction world message).1 later :=
  rfl

theorem transact_append (world : σ) (first second : List (List UInt8)) :
    transact handleTransaction world (first ++ second) =
      transact handleTransaction (transact handleTransaction world first) second :=
  List.foldl_append

theorem outcomes_append (world : σ) (first second : List (List UInt8)) :
    outcomes handleTransaction world (first ++ second) =
      outcomes handleTransaction world first ++
        outcomes handleTransaction (transact handleTransaction world first) second := by
  induction first generalizing world with
  | nil => rfl
  | cons message first ih =>
      simp only [List.cons_append, outcomes, transact_cons, ih]

theorem map_fst_outcomes (world : σ) (messages : List (List UInt8)) :
    (outcomes handleTransaction world messages).map Prod.fst = messages := by
  induction messages generalizing world with
  | nil => rfl
  | cons message later ih => simp only [outcomes, List.map_cons, ih]

theorem handleMessage_transacts {fuel : Nat} {line after : Line} {world final : σ}
    {log : List (List UInt8 × Bool)}
    (handled : handleMessage getMessageLength handleTransaction fuel line world =
      some (after, final, log)) :
    log = outcomes handleTransaction world (log.map Prod.fst) ∧
      final = transact handleTransaction world (log.map Prod.fst) := by
  induction fuel generalizing line world log with
  | zero => cases handled
  | succ fuel ih =>
      rw [handleMessage] at handled
      split at handled
      · cases handled
        exact ⟨rfl, rfl⟩
      · rename_i block found
        dsimp only at handled
        by_cases malformed : getMessageLength (block.take line.fragmentOffset) = -1
        · rw [if_pos malformed] at handled
          exact ih handled
        · rw [if_neg malformed] at handled
          split at handled
          · simp only [Option.bind_eq_bind, Option.bind_eq_some_iff] at handled
            obtain ⟨middle, -, ⟨rest, restWorld, restLog⟩, looped, result⟩ := handled
            cases result
            obtain ⟨logEq, finalEq⟩ := ih looped
            refine ⟨?_, finalEq⟩
            rw [List.map_cons, outcomes, ← logEq]
          · cases handled
            exact ⟨rfl, rfl⟩

theorem handleAcceptFD_transacts {result : ReadResult} {line after : Line} {world final : σ}
    {log : List (List UInt8 × Bool)}
    (handled : handleAcceptFD getMessageLength handleTransaction result line world =
      some (after, final, log)) :
    log = outcomes handleTransaction world (log.map Prod.fst) ∧
      final = transact handleTransaction world (log.map Prod.fst) := by
  simp only [handleAcceptFD, Option.bind_eq_bind, Option.bind_eq_some_iff] at handled
  obtain ⟨prepared, -, handled⟩ := handled
  split at handled
  · cases handled
    exact ⟨rfl, rfl⟩
  · cases handled
    exact ⟨rfl, rfl⟩
  · cases handled
    exact ⟨rfl, rfl⟩
  · simp only [Option.bind_eq_some_iff] at handled
    obtain ⟨fragment, -, handled⟩ := handled
    exact handleMessage_transacts handled

/-- All messages handed over, connection by connection, with their outcomes. -/
def Server.transactions (s : Server σ) : List (List UInt8 × Bool) :=
  (List.range s.connections).flatMap s.handed

theorem flatMap_update_perm {α : Type} {keys : List Nat} (nodup : keys.Nodup) {key : Nat}
    (member : key ∈ keys) (f : Nat → List α) (more : List α) :
    (keys.flatMap (Function.update f key (f key ++ more))).Perm (keys.flatMap f ++ more) := by
  induction keys with
  | nil => cases member
  | cons first keys ih =>
      obtain ⟨absent, nodup⟩ := List.nodup_cons.mp nodup
      rcases List.mem_cons.mp member with rfl | later
      · have same : keys.flatMap (Function.update f key (f key ++ more)) = keys.flatMap f := by
          refine List.flatMap_congr fun other inside => ?_
          rw [Function.update_of_ne]
          rintro rfl
          exact absent inside
        simp only [List.flatMap_cons, Function.update_self, same, List.append_assoc]
        exact List.perm_append_comm.append_left _
      · have other : first ≠ key := by
          rintro rfl
          exact absent later
        simp only [List.flatMap_cons, Function.update_of_ne other, List.append_assoc]
        exact (ih nodup later).append_left _

theorem reachable_of_steps {world : σ} {s : Server σ}
    (steps : Relation.ReflTransGen (Step getMessageLength handleTransaction) (start world) s) :
    Reachable getMessageLength handleTransaction s := by
  induction steps with
  | refl => exact .start world
  | tail before step ih => exact .step ih step

/-- The world after any run comes from the messages handed over, one transaction after
another in an order that keeps the order on each connection. -/
theorem steps_transact (headerOnly : HeaderOnly headerLength getMessageLength)
    (small : headerLength ≤ fragmentPageSize) {world : σ} {s : Server σ}
    (steps : Relation.ReflTransGen (Step getMessageLength handleTransaction) (start world) s) :
    ∃ order : List (List UInt8),
      (outcomes handleTransaction world order).Perm s.transactions ∧
      (∀ connection, (s.handed connection).Sublist (outcomes handleTransaction world order)) ∧
      s.world = transact handleTransaction world order := by
  induction steps with
  | refl => exact ⟨[], by simp [Server.transactions, start, outcomes], by simp [start], rfl⟩
  | @tail before after steps step ih =>
      obtain ⟨order, perm, sublists, worldEq⟩ := ih
      have consistent : Consistent getMessageLength before :=
        (reachable_of_steps steps).consistent headerOnly small
      cases step with
      | accept index =>
          refine ⟨order, ?_, sublists, worldEq⟩
          have nothing := (consistent.unused before.connections le_rfl).2
          simpa [Server.transactions, List.range_succ, nothing] using perm
      | refuse index => exact ⟨order, perm, sublists, worldEq⟩
      | @read index connection prepared line world messages result accepted preparedEq
          possible handled =>
          obtain ⟨logEq, finalEq⟩ := handleAcceptFD_transacts handled
          rw [worldEq] at logEq finalEq
          refine ⟨order ++ messages.map Prod.fst, ?_, ?_, ?_⟩
          · have known : connection ∈ List.range before.connections :=
              List.mem_range.mpr (consistent.known index connection accepted)
            rw [outcomes_append, ← logEq]
            refine (perm.append_right _).trans (List.Perm.symm ?_)
            exact flatMap_update_perm List.nodup_range known before.handed messages
          · intro other
            rw [outcomes_append, ← logEq]
            by_cases same : other = connection
            · subst same
              simp only [Function.update_self]
              exact (sublists other).append (List.Sublist.refl _)
            · simp only [Function.update_of_ne same]
              exact (sublists other).trans (List.sublist_append_left _ _)
          · rw [transact_append]
            exact finalEq
      | clear index accepted => exact ⟨order, perm, sublists, worldEq⟩

/-- One read of a whole message on a fresh connection, with a transaction that succeeds. -/
theorem exists_read (headerOnly : HeaderOnly headerLength getMessageLength)
    (small : headerLength ≤ fragmentPageSize) {world : σ} {s : Server σ}
    (steps : Relation.ReflTransGen (Step getMessageLength handleTransaction) (start world) s)
    {index : Fin 32} {connection : Nat} (accepted : (s.lines index).acceptfd = some connection)
    (unread : (s.lines index).fragment = none) (fresh : s.received connection = [])
    {message : List UInt8} (size : 1 ≤ message.length ∧ message.length ≤ fragmentPageSize)
    (whole : messages getMessageLength message = [message]) {after : σ}
    (succeeds : handleTransaction s.world message = (after, 0)) :
    ∃ line, Relation.ReflTransGen (Step getMessageLength handleTransaction) (start world) { s with
      lines := Function.update s.lines index line
      world := after
      received := Function.update s.received connection message
      handed := Function.update s.handed connection [(message, true)] } := by
  have consistent := (reachable_of_steps steps).consistent headerOnly small
  have prepared : prepareFragment (s.lines index) = some { s.lines index with
      fragmentSize := fragmentPageSize
      fragmentOffset := 0
      fragment := some (malloc fragmentPageSize) } := by
    rw [prepareFragment, unread]
  have possible : ∀ chunk, ReadResult.bytes message = .bytes chunk →
      1 ≤ chunk.length ∧ chunk.length ≤ fragmentPageSize - 0 := by
    rintro _ ⟨⟩
    exact size
  obtain ⟨line, final, log, handled, -⟩ :=
    consistent.serves headerOnly small accepted prepared possible
  have next := steps.tail (.read index (.bytes message) accepted prepared possible handled)
  obtain ⟨logEq, finalEq⟩ := handleAcceptFD_transacts handled
  have nothing : s.handed connection = [] := by
    rw [(consistent.waiting index connection accepted).1, fresh,
      messages_of_not_complete not_complete_nil]
    rfl
  have delivered := ((reachable_of_steps next).consistent headerOnly small).delivered connection
  simp only [Function.update_self, fresh, nothing, List.nil_append, ReadResult.chunk]
    at delivered
  have handed : log.map Prod.fst = [message] := by
    cases delivered with
    | all all => rw [all, map_fst_succeed, whole]
    | @failed earlier later failing split last =>
        rw [whole] at split
        cases earlier with
        | nil => rw [last, (List.cons.inj split).1]; rfl
        | cons other earlier =>
            have sizes := congrArg List.length split
            simp at sizes
  rw [handed] at logEq finalEq
  simp only [outcomes, succeeds] at logEq
  rw [transact_cons, succeeds] at finalEq
  simp only [fresh, nothing, logEq, finalEq, List.nil_append, ReadResult.chunk] at next
  exact ⟨line, next⟩

end FrameCode.AsynccomServer
