import FrameCode.AsynccomServer

/-!
# Reassembly of the byte streams

Over every history of the server, the messages handed to `HandleTransaction` for a
connection are those of the bytes received on it, up to the first transaction that
fails.  How the bytes arrive and what happens on other lines does not matter.
-/

namespace FrameCode.AsynccomServer

open StreamFraming MachineInt

/-! ## The repository's message lengths -/

theorem bancsMessageLength_headerOnly : HeaderOnly 5 bancsMessageLength where
  short message few := by simp [bancsMessageLength, few]
  header message other long otherLong same := by
    have head : message.head? = other.head? := by
      have taken := congrArg List.head? same
      simpa [List.head?_take] using taken
    have digits : (message.drop 1).take 4 = (other.drop 1).take 4 := by
      have dropped := congrArg (List.drop 1) same
      simpa [List.drop_take] using dropped
    simp only [bancsMessageLength, not_lt.mpr long, not_lt.mpr otherLong, head, digits]

theorem bancscardMessageLength_headerOnly : HeaderOnly 5 bancscardMessageLength where
  short message few := by simp [bancscardMessageLength, few]
  header message other long otherLong same := by
    have digits : (message.drop 1).take 4 = (other.drop 1).take 4 := by
      have dropped := congrArg (List.drop 1) same
      simpa [List.drop_take] using dropped
    simp only [bancscardMessageLength, not_lt.mpr long, not_lt.mpr otherLong, digits]

theorem bancscard8583MessageLength_headerOnly : HeaderOnly 4 bancscard8583MessageLength where
  short message few := by simp [bancscard8583MessageLength, few]
  header message other long otherLong same := by
    simp [bancscard8583MessageLength, not_lt.mpr long, not_lt.mpr otherLong, same]

/-! ## The block of a line -/

theorem writeAt_eq {block bytes : List UInt8} {offset : Nat}
    (room : offset + bytes.length ≤ block.length) :
    ∃ after, writeAt block offset bytes = some after ∧ after.length = block.length ∧
      after.take (offset + bytes.length) = block.take offset ++ bytes := by
  refine ⟨_, if_pos room, ?_, ?_⟩
  · simp
    omega
  · have length_eq : (block.take offset ++ bytes).length = offset + bytes.length := by
      simp
      omega
    rw [← length_eq, List.take_left]

/-- The block of a line holds the given bytes, in pages the last of which is in
use. -/
structure Holds (line : Line) (block bytes : List UInt8) : Prop where
  found : line.fragment = some block
  sized : block.length = line.fragmentSize
  whole : ∃ pages, line.fragmentSize = fragmentPageSize * (pages + 1)
  inside : line.fragmentOffset ≤ line.fragmentSize
  used : line.fragmentSize ≤ line.fragmentOffset + fragmentPageSize
  content : block.take line.fragmentOffset = bytes

theorem Holds.length_eq {line : Line} {block bytes : List UInt8}
    (holds : Holds line block bytes) : bytes.length = line.fragmentOffset := by
  rw [← holds.content, List.length_take, holds.sized]
  exact min_eq_left holds.inside

/-- The bytes that wait on a line. -/
inductive Pending (line : Line) : List UInt8 → Prop
  | none (missing : line.fragment = none) : Pending line []
  | some {block bytes : List UInt8} (holds : Holds line block bytes) : Pending line bytes

theorem prepareFragment_spec {line prepared : Line} {bytes : List UInt8}
    (pending : Pending line bytes) (preparedEq : prepareFragment line = some prepared) :
    prepared.acceptfd = line.acceptfd ∧ ∃ block, Holds prepared block bytes := by
  unfold prepareFragment at preparedEq
  cases pending with
  | none missing =>
      rw [missing] at preparedEq
      cases preparedEq
      exact ⟨rfl, _, rfl, by simp [malloc], ⟨0, rfl⟩, Nat.zero_le _, by simp, by simp⟩
  | @some block _ holds =>
      obtain ⟨found, sized, ⟨pages, whole⟩, inside, used, content⟩ := holds
      simp only [found] at preparedEq
      split at preparedEq
      · rename_i full
        split at preparedEq <;> cases preparedEq
        refine ⟨rfl, _, rfl, by simp [malloc, sized], ⟨pages + 1, ?_⟩, ?_, ?_, ?_⟩
        · simp only [whole, fragmentPageSize]
          omega
        · exact inside.trans (Nat.le_add_right _ _)
        · simp only
          omega
        · simp only
          rw [List.take_append_of_le_length (by omega), content]
      · cases preparedEq
        exact ⟨rfl, block, found, sized, ⟨pages, whole⟩, inside, used, content⟩

/-- A read fills the block from where the last one ended. -/
theorem Holds.read {line : Line} {block bytes chunk : List UInt8} (holds : Holds line block bytes)
    (room : chunk.length ≤ line.fragmentSize - line.fragmentOffset) :
    ∃ fragment, writeAt block line.fragmentOffset chunk = some fragment ∧
      Holds { line with
        fragment := some fragment
        fragmentOffset := line.fragmentOffset + chunk.length } fragment (bytes ++ chunk) := by
  have inside := holds.inside
  have used := holds.used
  have fits : line.fragmentOffset + chunk.length ≤ block.length := by
    rw [holds.sized]
    omega
  obtain ⟨fragment, written, length_eq, content⟩ := writeAt_eq fits
  refine ⟨fragment, written, rfl, length_eq.trans holds.sized, holds.whole, ?_, ?_, ?_⟩
  · simp only
    omega
  · simp only
    omega
  · rw [content, holds.content]

/-- Taking a message leaves the bytes behind it. -/
theorem Holds.takeMessage {line : Line} {block bytes : List UInt8}
    (holds : Holds line block bytes) {messageLength : Nat}
    (inside : messageLength ≤ bytes.length)
    (fits : bytes.length - messageLength ≤ fragmentPageSize) :
    ∃ after, takeMessage line block messageLength = some after ∧
      after.acceptfd = line.acceptfd ∧ Pending after (bytes.drop messageLength) := by
  have length_eq := holds.length_eq
  unfold AsynccomServer.takeMessage
  by_cases more : messageLength < line.fragmentOffset
  · rw [if_pos more, holds.content]
    have room : 0 + (bytes.drop messageLength).length ≤ (malloc fragmentPageSize).length := by
      simp [malloc]
      omega
    obtain ⟨fragment, written, fragmentLength, content⟩ := writeAt_eq room
    rw [written, Option.map_some]
    refine ⟨_, rfl, rfl, .some ⟨rfl, ?_, ⟨0, rfl⟩, ?_, ?_, ?_⟩⟩
    · simp [fragmentLength, malloc]
    · simp only
      omega
    · simp
    · simpa [length_eq] using content
  · rw [if_neg more]
    have everything : bytes.drop messageLength = [] := List.drop_eq_nil_of_le (by omega)
    refine ⟨_, rfl, rfl, ?_⟩
    rw [everything]
    exact .none rfl

/-! ## The loop over the messages -/

section Loop

variable {σ : Type} {getMessageLength : List UInt8 → Int}
variable {handleTransaction : σ → List UInt8 → σ × Int}

/-- The messages with transactions that succeed. -/
def succeed (messages : List (List UInt8)) : List (List UInt8 × Bool) :=
  messages.map fun message => (message, true)

/-- The messages of a stream were handed over, or those up to one whose
transaction failed. -/
inductive Delivered (getMessageLength : List UInt8 → Int) (bytes : List UInt8)
    (handed : List (List UInt8 × Bool)) : Prop
  | all (all : handed = succeed (messages getMessageLength bytes))
  | failed {earlier later : List (List UInt8)} {message : List UInt8}
      (split : messages getMessageLength bytes = earlier ++ message :: later)
      (last : handed = succeed earlier ++ [(message, false)])

/-- The outcome of the loop over the bytes of a line: all whole messages were
handed over and the line waits for more bytes, or it was closed. -/
inductive Served (getMessageLength : List UInt8 → Int) (bytes : List UInt8)
    (line after : Line) (log : List (List UInt8 × Bool)) : Prop
  | waiting (all : log = succeed (messages getMessageLength bytes))
      (kept : after.acceptfd = line.acceptfd)
      (pending : Pending after (rest getMessageLength bytes))
  | closed (delivered : Delivered getMessageLength bytes log) (closed : after.acceptfd = none)

theorem Delivered.cons {bytes : List UInt8} {log : List (List UInt8 × Bool)}
    (complete : Complete getMessageLength bytes)
    (delivered : Delivered getMessageLength (bytes.drop (getMessageLength bytes).toNat) log) :
    Delivered getMessageLength bytes
      ((bytes.take (getMessageLength bytes).toNat, true) :: log) := by
  have unfolded := messages_of_complete complete
  cases delivered with
  | all all =>
      refine .all ?_
      rw [unfolded, all]
      rfl
  | @failed earlier later message split last =>
      rw [split, ← List.cons_append] at unfolded
      refine .failed unfolded ?_
      rw [last]
      rfl

theorem Served.cons {bytes : List UInt8} {line middle after : Line}
    {log : List (List UInt8 × Bool)} (complete : Complete getMessageLength bytes)
    (kept : middle.acceptfd = line.acceptfd)
    (served : Served getMessageLength (bytes.drop (getMessageLength bytes).toNat) middle after
      log) :
    Served getMessageLength bytes line after
      ((bytes.take (getMessageLength bytes).toNat, true) :: log) := by
  cases served with
  | waiting all keptAfter pending =>
      refine .waiting ?_ (keptAfter.trans kept) ?_
      · rw [messages_of_complete complete, all]
        rfl
      · rw [rest_of_complete complete]
        exact pending
  | closed delivered closed => exact .closed (delivered.cons complete) closed

theorem handleMessage_closed {fuel : Nat} (positive : 0 < fuel) (line : Line) (world : σ) :
    handleMessage getMessageLength handleTransaction fuel (closeLine line) world =
      some (closeLine line, world, []) := by
  obtain ⟨fuel, rfl⟩ : ∃ smaller, fuel = smaller + 1 := ⟨fuel - 1, by omega⟩
  rfl

/-- One round of the loop that finds a whole message. -/
theorem handleMessage_complete (fuel : Nat) {line middle : Line} {block bytes : List UInt8}
    (world : σ) (holds : Holds line block bytes) (complete : Complete getMessageLength bytes)
    (taken : takeMessage line block (getMessageLength bytes).toNat = some middle) :
    handleMessage getMessageLength handleTransaction (fuel + 1) line world =
      (handleMessage getMessageLength handleTransaction fuel
        (if (handleTransaction world (bytes.take (getMessageLength bytes).toNat)).2 < 0 then
          closeLine middle else middle)
        (handleTransaction world (bytes.take (getMessageLength bytes).toNat)).1).bind
        fun result => some (result.1, result.2.1,
          (bytes.take (getMessageLength bytes).toNat, decide
            (0 ≤ (handleTransaction world (bytes.take (getMessageLength bytes).toNat)).2)) ::
            result.2.2) := by
  have positive := complete.1
  have inside := complete.2
  have length_eq := holds.length_eq
  have message_eq {count : Nat} (small : count ≤ line.fragmentOffset) :
      block.take count = bytes.take count := by
    rw [← holds.content, List.take_take, min_eq_left small]
  rw [handleMessage, holds.found]
  simp only [holds.content]
  rw [if_neg (by omega), if_pos (length_eq ▸ complete), taken, message_eq (by omega)]
  rfl

theorem not_complete_nil : ¬ Complete getMessageLength [] := by
  rintro ⟨positive, inside⟩
  simp only [List.length_nil] at inside
  omega

/-- The loop ends with every whole message handed over, unless a transaction
fails. -/
theorem handleMessage_spec {fuel : Nat} {line : Line} {bytes : List UInt8} (world : σ)
    (pending : Pending line bytes) (enough : bytes.length + 1 < fuel)
    (fits : Complete getMessageLength bytes →
      bytes.length - (getMessageLength bytes).toNat ≤ fragmentPageSize) :
    ∃ after finalWorld log,
      handleMessage getMessageLength handleTransaction fuel line world =
        some (after, finalWorld, log) ∧
      Served getMessageLength bytes line after log := by
  induction fuel generalizing line bytes world with
  | zero => omega
  | succ fuel ih =>
      cases pending with
      | none missing =>
          refine ⟨line, world, [], by rw [handleMessage, missing], .waiting ?_ rfl ?_⟩
          · rw [messages_of_not_complete not_complete_nil]
            rfl
          · rw [rest_of_not_complete not_complete_nil]
            exact .none missing
      | @some block _ holds =>
          have length_eq := holds.length_eq
          by_cases malformed : getMessageLength bytes = -1
          · have incomplete : ¬ Complete getMessageLength bytes := fun complete => by
              have positive := complete.1
              omega
            refine ⟨closeLine line, world, [], ?_, .closed (.all ?_) rfl⟩
            · rw [handleMessage, holds.found]
              simp only [holds.content]
              rw [if_pos malformed, handleMessage_closed (by omega)]
            · rw [messages_of_not_complete incomplete]
              rfl
          · by_cases complete : Complete getMessageLength bytes
            · have positive := complete.1
              have inside := complete.2
              obtain ⟨middle, taken, kept, middlePending⟩ :=
                holds.takeMessage (by omega) (fits complete)
              rw [handleMessage_complete fuel world holds complete taken]
              by_cases failed :
                  (handleTransaction world (bytes.take (getMessageLength bytes).toNat)).2 < 0
              · rw [if_pos failed, handleMessage_closed (by omega)]
                have first : messages getMessageLength bytes = [] ++ _ :: _ :=
                  messages_of_complete complete
                refine ⟨_, _, _, rfl, .closed (.failed first ?_) rfl⟩
                simp [succeed, failed]
              · rw [if_neg failed]
                obtain ⟨after, finalWorld, log, handled, served⟩ := ih _ middlePending
                  (by simp only [List.length_drop]; omega)
                  (fun _ => (Nat.sub_le _ _).trans (by
                    rw [List.length_drop]
                    exact fits complete))
                refine ⟨after, finalWorld, _, by rw [handled]; rfl, ?_⟩
                rw [decide_eq_true (not_lt.mp failed)]
                exact served.cons complete kept
            · refine ⟨line, world, [], ?_, .waiting ?_ rfl ?_⟩
              · rw [handleMessage, holds.found]
                simp only [holds.content]
                rw [if_neg malformed, if_neg (length_eq ▸ complete)]
              · rw [messages_of_not_complete complete]
                rfl
              · rw [rest_of_not_complete complete]
                exact .some holds

end Loop

/-! ## Histories -/

section Histories

variable {σ : Type} {getMessageLength : List UInt8 → Int}
variable {handleTransaction : σ → List UInt8 → σ × Int} {headerLength : Nat}

theorem Served.of_idle {bytes : List UInt8} {line after : Line}
    (incomplete : ¬ Complete getMessageLength bytes) (kept : after.acceptfd = line.acceptfd)
    (pending : Pending after bytes) : Served getMessageLength bytes line after [] := by
  refine .waiting ?_ kept ?_
  · rw [messages_of_not_complete incomplete]
    rfl
  · rwa [rest_of_not_complete incomplete]

/-- What a message leaves behind is less than a page: it ends among the bytes of
the last read, or all bytes are in the first page. -/
theorem fits_page (headerOnly : HeaderOnly headerLength getMessageLength)
    (small : headerLength ≤ fragmentPageSize) {line : Line} {block bytes chunk : List UInt8}
    (holds : Holds line block bytes) (incomplete : ¬ Complete getMessageLength bytes)
    (room : chunk.length ≤ line.fragmentSize - line.fragmentOffset)
    (complete : Complete getMessageLength (bytes ++ chunk)) :
    (bytes ++ chunk).length - (getMessageLength (bytes ++ chunk)).toNat < fragmentPageSize := by
  have length_eq := holds.length_eq
  have used := holds.used
  have positive := complete.1
  obtain ⟨pages, whole⟩ := holds.whole
  rw [List.length_append]
  by_cases header : headerLength ≤ bytes.length
  · have later := headerOnly.lt_of_complete_append incomplete complete header
    have page : 0 < fragmentPageSize := by decide
    omega
  · have onePage : pages = 0 := by
      by_contra more
      have twoPages : fragmentPageSize * 2 ≤ line.fragmentSize := by
        rw [whole]
        exact Nat.mul_le_mul_left _ (by omega)
      omega
    subst onePage
    omega

/-- `HandleAcceptFD` serves the bytes that waited followed by those read. -/
theorem handleAcceptFD_spec (headerOnly : HeaderOnly headerLength getMessageLength)
    (small : headerLength ≤ fragmentPageSize) {line prepared : Line} {bytes : List UInt8}
    {result : ReadResult} (world : σ) (pending : Pending line bytes)
    (incomplete : ¬ Complete getMessageLength bytes)
    (preparedEq : prepareFragment line = some prepared)
    (possible : ∀ chunk, result = .bytes chunk → 1 ≤ chunk.length ∧
      chunk.length ≤ prepared.fragmentSize - prepared.fragmentOffset) :
    ∃ after finalWorld log,
      handleAcceptFD getMessageLength handleTransaction result line world =
        some (after, finalWorld, log) ∧
      Served getMessageLength (bytes ++ result.chunk) line after log := by
  obtain ⟨kept, block, holds⟩ := prepareFragment_spec pending preparedEq
  cases result with
  | error again =>
      simp only [ReadResult.chunk, List.append_nil]
      cases again with
      | true =>
          exact ⟨prepared, world, [], by simp [handleAcceptFD, preparedEq],
            .of_idle incomplete kept (.some holds)⟩
      | false =>
          refine ⟨closeLine prepared, world, [], by simp [handleAcceptFD, preparedEq],
            .closed (.all ?_) rfl⟩
          rw [messages_of_not_complete incomplete]
          rfl
  | closed =>
      simp only [ReadResult.chunk, List.append_nil]
      refine ⟨closeLine prepared, world, [], by simp [handleAcceptFD, preparedEq],
        .closed (.all ?_) rfl⟩
      rw [messages_of_not_complete incomplete]
      rfl
  | bytes chunk =>
      obtain ⟨-, room⟩ := possible chunk rfl
      obtain ⟨fragment, written, filled⟩ := holds.read room
      obtain ⟨after, finalWorld, log, handled, served⟩ :=
        @handleMessage_spec σ getMessageLength handleTransaction
          (prepared.fragmentOffset + chunk.length + 2) _ _ world (.some filled)
          (by rw [filled.length_eq]; exact Nat.lt_succ_self _)
          (fun complete => (fits_page headerOnly small holds incomplete room complete).le)
      refine ⟨after, finalWorld, log, ?_, ?_⟩
      · simp [handleAcceptFD, preparedEq, holds.found, written, handled]
      · cases served with
        | waiting all keptAfter pendingAfter =>
            exact .waiting all (keptAfter.trans kept) pendingAfter
        | closed delivered closed => exact .closed delivered closed

/-- What holds of the server at all times. -/
structure Consistent (getMessageLength : List UInt8 → Int) (s : Server σ) : Prop where
  known : ∀ index connection, (s.lines index).acceptfd = some connection →
    connection < s.connections
  distinct : ∀ index other connection, (s.lines index).acceptfd = some connection →
    (s.lines other).acceptfd = some connection → index = other
  unused : ∀ connection, s.connections ≤ connection →
    s.received connection = [] ∧ s.handed connection = []
  waiting : ∀ index connection, (s.lines index).acceptfd = some connection →
    s.handed connection = succeed (messages getMessageLength (s.received connection)) ∧
    Pending (s.lines index) (rest getMessageLength (s.received connection))
  delivered : ∀ connection,
    Delivered getMessageLength (s.received connection) (s.handed connection)

theorem consistent_start (world : σ) : Consistent getMessageLength (start world) where
  known _ _ accepted := by cases accepted
  distinct _ _ _ accepted := by cases accepted
  unused _ _ := ⟨rfl, rfl⟩
  waiting _ _ accepted := by cases accepted
  delivered _ := by
    refine .all ?_
    rw [start, messages_of_not_complete not_complete_nil]
    rfl

theorem Consistent.accept {s : Server σ} (consistent : Consistent getMessageLength s)
    (index : Fin 32) :
    Consistent getMessageLength { s with
      lines := Function.update s.lines index (handleListenFD s.connections (s.lines index))
      connections := s.connections + 1 } := by
  have lookup {other : Fin 32} {connection : Nat}
      (accepted : (Function.update s.lines index
        (handleListenFD s.connections (s.lines index)) other).acceptfd = some connection) :
      (other = index ∧ connection = s.connections) ∨
        (other ≠ index ∧ (s.lines other).acceptfd = some connection) := by
    by_cases same : other = index
    · subst same
      rw [Function.update_self] at accepted
      exact Or.inl ⟨rfl, (Option.some.inj accepted).symm⟩
    · rw [Function.update_of_ne same] at accepted
      exact Or.inr ⟨same, accepted⟩
  refine ⟨?_, ?_, ?_, ?_, consistent.delivered⟩
  · intro other connection accepted
    rcases lookup accepted with ⟨-, rfl⟩ | ⟨-, before⟩
    · exact Nat.lt_succ_self _
    · exact (consistent.known other connection before).trans (Nat.lt_succ_self _)
  · intro first second connection acceptedFirst acceptedSecond
    rcases lookup acceptedFirst with ⟨rfl, rfl⟩ | ⟨-, before⟩
    · rcases lookup acceptedSecond with ⟨rfl, -⟩ | ⟨-, earlier⟩
      · rfl
      · exact absurd (consistent.known second _ earlier) (lt_irrefl _)
    · rcases lookup acceptedSecond with ⟨-, rfl⟩ | ⟨-, earlier⟩
      · exact absurd (consistent.known first _ before) (lt_irrefl _)
      · exact consistent.distinct first second connection before earlier
  · intro connection later
    exact consistent.unused connection ((Nat.le_succ _).trans later)
  · intro other connection accepted
    rcases lookup accepted with ⟨rfl, rfl⟩ | ⟨different, before⟩
    · obtain ⟨receivedEq, handedEq⟩ := consistent.unused s.connections le_rfl
      simp only [Function.update_self, receivedEq, handedEq]
      rw [messages_of_not_complete not_complete_nil, rest_of_not_complete not_complete_nil]
      exact ⟨rfl, .none rfl⟩
    · simp only [Function.update_of_ne different]
      exact consistent.waiting other connection before

theorem Consistent.clear {s : Server σ} (consistent : Consistent getMessageLength s)
    (index : Fin 32) :
    Consistent getMessageLength { s with
      lines := Function.update s.lines index { s.lines index with acceptfd := none } } := by
  have lookup {other : Fin 32} {connection : Nat}
      (accepted : (Function.update s.lines index
        { s.lines index with acceptfd := none } other).acceptfd = some connection) :
      other ≠ index ∧ (s.lines other).acceptfd = some connection := by
    by_cases same : other = index
    · subst same
      rw [Function.update_self] at accepted
      cases accepted
    · rw [Function.update_of_ne same] at accepted
      exact ⟨same, accepted⟩
  refine ⟨?_, ?_, consistent.unused, ?_, consistent.delivered⟩
  · intro other connection accepted
    exact consistent.known other connection (lookup accepted).2
  · intro first second connection acceptedFirst acceptedSecond
    exact consistent.distinct first second connection (lookup acceptedFirst).2
      (lookup acceptedSecond).2
  · intro other connection accepted
    simp only [Function.update_of_ne (lookup accepted).1]
    exact consistent.waiting other connection (lookup accepted).2

/-- The bytes that a line has read and not yet handed over. -/
def Line.waiting (line : Line) : List UInt8 :=
  (line.fragment.getD []).take line.fragmentOffset

theorem Pending.waiting_eq {line : Line} {bytes : List UInt8} (pending : Pending line bytes) :
    line.waiting = bytes := by
  cases pending with
  | none missing => rw [Line.waiting, missing, Option.getD_none, List.take_nil]
  | some holds => rw [Line.waiting, holds.found, Option.getD_some, holds.content]

theorem succeed_append (first second : List (List UInt8)) :
    succeed (first ++ second) = succeed first ++ succeed second :=
  List.map_append

theorem Delivered.append (headerOnly : HeaderOnly headerLength getMessageLength)
    {bytes chunk : List UInt8} {log : List (List UInt8 × Bool)}
    (delivered : Delivered getMessageLength (rest getMessageLength bytes ++ chunk) log) :
    Delivered getMessageLength (bytes ++ chunk)
      (succeed (messages getMessageLength bytes) ++ log) := by
  have joined := headerOnly.messages_append bytes chunk
  cases delivered with
  | all all =>
      refine .all ?_
      rw [joined, succeed_append, all]
  | @failed earlier later message split last =>
      rw [split, ← List.append_assoc] at joined
      refine .failed joined ?_
      rw [last, succeed_append, List.append_assoc]

/-- The outcome of a read, over all bytes of its connection. -/
theorem Served.append (headerOnly : HeaderOnly headerLength getMessageLength)
    {bytes chunk : List UInt8} {line after : Line} {log : List (List UInt8 × Bool)}
    (served : Served getMessageLength (rest getMessageLength bytes ++ chunk) line after log) :
    Served getMessageLength (bytes ++ chunk) line after
      (succeed (messages getMessageLength bytes) ++ log) := by
  cases served with
  | waiting all kept pending =>
      refine .waiting ?_ kept ?_
      · rw [headerOnly.messages_append, succeed_append, all]
      · rw [headerOnly.rest_append]
        exact pending
  | closed delivered closed => exact .closed (delivered.append headerOnly) closed

theorem Served.delivered {bytes : List UInt8} {line after : Line}
    {log : List (List UInt8 × Bool)} (served : Served getMessageLength bytes line after log) :
    Delivered getMessageLength bytes log := by
  cases served with
  | waiting all kept pending => exact .all all
  | closed delivered closed => exact delivered

theorem Consistent.read {s : Server σ} (consistent : Consistent getMessageLength s)
    {index : Fin 32} {connection : Nat}
    (accepted : (s.lines index).acceptfd = some connection) {bytes : List UInt8} {line : Line}
    {log : List (List UInt8 × Bool)} (world : σ)
    (served : Served getMessageLength bytes (s.lines index) line (s.handed connection ++ log)) :
    Consistent getMessageLength { s with
      lines := Function.update s.lines index line
      world := world
      received := Function.update s.received connection bytes
      handed := Function.update s.handed connection (s.handed connection ++ log) } := by
  have lookup {other : Fin 32} {found : Nat}
      (open_ : (Function.update s.lines index line other).acceptfd = some found) :
      (s.lines other).acceptfd = some found := by
    by_cases same : other = index
    · subst same
      rw [Function.update_self] at open_
      cases served with
      | waiting all kept pending => rwa [kept] at open_
      | closed delivered closed => rw [closed] at open_; cases open_
    · rwa [Function.update_of_ne same] at open_
  refine ⟨?_, ?_, ?_, ?_, ?_⟩
  · intro other found open_
    exact consistent.known other found (lookup open_)
  · intro first second found openFirst openSecond
    exact consistent.distinct first second found (lookup openFirst) (lookup openSecond)
  · intro other later
    have different : other ≠ connection := by
      have smaller := consistent.known index connection accepted
      simp only at later
      omega
    simp only [Function.update_of_ne different]
    exact consistent.unused other later
  · intro other found open_
    have before := lookup open_
    by_cases same : other = index
    · subst same
      obtain rfl : connection = found := Option.some.inj (accepted.symm.trans before)
      simp only [Function.update_self] at open_ ⊢
      cases served with
      | waiting all kept pending => exact ⟨all, pending⟩
      | closed delivered closed => rw [closed] at open_; cases open_
    · have different : found ≠ connection := by
        rintro rfl
        exact same (consistent.distinct other index found before accepted)
      simp only [Function.update_of_ne same, Function.update_of_ne different]
      exact consistent.waiting other found before
  · intro other
    by_cases same : other = connection
    · subst same
      simp only [Function.update_self]
      exact served.delivered
    · simp only [Function.update_of_ne same]
      exact consistent.delivered other

/-- What a read of an open line does. -/
theorem Consistent.serves (headerOnly : HeaderOnly headerLength getMessageLength)
    (small : headerLength ≤ fragmentPageSize) {s : Server σ}
    (consistent : Consistent getMessageLength s) {index : Fin 32} {connection : Nat}
    (accepted : (s.lines index).acceptfd = some connection) {prepared : Line}
    {result : ReadResult} (preparedEq : prepareFragment (s.lines index) = some prepared)
    (possible : ∀ chunk, result = .bytes chunk → 1 ≤ chunk.length ∧
      chunk.length ≤ prepared.fragmentSize - prepared.fragmentOffset) :
    ∃ after finalWorld log,
      handleAcceptFD getMessageLength handleTransaction result (s.lines index) s.world =
        some (after, finalWorld, log) ∧
      Served getMessageLength (s.received connection ++ result.chunk) (s.lines index) after
        (s.handed connection ++ log) := by
  obtain ⟨handedEq, pending⟩ := consistent.waiting index connection accepted
  obtain ⟨after, finalWorld, log, handled, served⟩ :=
    @handleAcceptFD_spec σ getMessageLength handleTransaction headerLength headerOnly small
      _ _ _ _ s.world pending (not_complete_rest _ _) preparedEq possible
  refine ⟨after, finalWorld, log, handled, ?_⟩
  rw [handedEq]
  exact served.append headerOnly

theorem Step.consistent (headerOnly : HeaderOnly headerLength getMessageLength)
    (small : headerLength ≤ fragmentPageSize) {s t : Server σ}
    (step : Step getMessageLength handleTransaction s t)
    (consistent : Consistent getMessageLength s) : Consistent getMessageLength t := by
  cases step with
  | accept index => exact consistent.accept index
  | refuse index => exact consistent
  | clear index accepted => exact consistent.clear index
  | @read index connection prepared line world log result accepted preparedEq possible handled =>
      obtain ⟨after, finalWorld, found, handledEq, served⟩ :=
        @Consistent.serves σ getMessageLength handleTransaction headerLength headerOnly small s
          consistent index connection accepted prepared result preparedEq possible
      cases handled.symm.trans handledEq
      exact consistent.read accepted _ served

theorem Reachable.consistent (headerOnly : HeaderOnly headerLength getMessageLength)
    (small : headerLength ≤ fragmentPageSize) {s : Server σ}
    (reachable : Reachable getMessageLength handleTransaction s) :
    Consistent getMessageLength s := by
  induction reachable with
  | start world => exact consistent_start world
  | step before step ih => exact step.consistent headerOnly small ih

theorem map_fst_succeed (messages : List (List UInt8)) :
    (succeed messages).map Prod.fst = messages := by
  simp [succeed, Function.comp_def]

theorem Delivered.flatten_isPrefix {bytes : List UInt8} {log : List (List UInt8 × Bool)}
    (delivered : Delivered getMessageLength bytes log) :
    (log.map Prod.fst).flatten <+: bytes := by
  have joined := messages_flatten getMessageLength bytes
  cases delivered with
  | all all =>
      rw [all, map_fst_succeed]
      exact ⟨_, joined⟩
  | @failed earlier later message split last =>
      rw [split] at joined
      refine ⟨later.flatten ++ rest getMessageLength bytes, ?_⟩
      rw [last, List.map_append, map_fst_succeed]
      simpa using joined

end Histories

end FrameCode.AsynccomServer
