import FrameCode.AsynccomStream

/-!
# The receive buffers

The server writes into the block of a line in three places: `read` adds to it, `memcpy` moves
what follows a message to a new page, and a `'\0'` goes behind the message.  The first two stay
inside of their blocks over every history.  The third leaves the block when a message fills it
to the last byte.
-/

namespace FrameCode.AsynccomServer

open StreamFraming

/-! ## The writes of a call -/

inductive Writer
  | read
  | memcpy
  | terminator
  deriving DecidableEq

/-- So many bytes are written at an offset of a block of the given size. -/
structure BlockWrite where
  writer : Writer
  offset : Nat
  length : Nat
  size : Nat

def BlockWrite.Inside (write : BlockWrite) : Prop := write.offset + write.length ≤ write.size

instance (write : BlockWrite) : Decidable write.Inside :=
  inferInstanceAs (Decidable (write.offset + write.length ≤ write.size))

/-- A line when a part of a call begins, and what this part writes. -/
structure Round where
  line : Line
  writes : List BlockWrite

/-- The writes of `HandleMessage` when it has found a message. -/
def messageWrites (line : Line) (block : List UInt8) (messageLength : Nat) : List BlockWrite :=
  if messageLength < line.fragmentOffset then
    [⟨.memcpy, 0, line.fragmentOffset - messageLength, fragmentPageSize⟩,
      ⟨.terminator, messageLength, 1, block.length⟩]
  else [⟨.terminator, messageLength, 1, block.length⟩]

section Rounds

variable {σ : Type} (getMessageLength : List UInt8 → Int)
variable (handleTransaction : σ → List UInt8 → σ × Int)

/-- The rounds of the loop in `HandleMessage`. -/
def handleMessageRounds : Nat → Line → σ → List Round
  | 0, _, _ => []
  | fuel + 1, line, world =>
      match line.fragment with
      | none => []
      | some block =>
          let messageLength := getMessageLength (block.take line.fragmentOffset)
          if messageLength = -1 then
            ⟨line, []⟩ :: handleMessageRounds fuel (closeLine line) world
          else if 0 < messageLength ∧ messageLength ≤ line.fragmentOffset then
            ⟨line, messageWrites line block messageLength.toNat⟩ ::
              match takeMessage line block messageLength.toNat with
              | none => []
              | some line =>
                  let outcome := handleTransaction world (block.take messageLength.toNat)
                  handleMessageRounds fuel (if outcome.2 < 0 then closeLine line else line)
                    outcome.1
          else [⟨line, []⟩]

/-- The read in `HandleAcceptFD`, followed by the rounds over the messages. -/
def handleAcceptRounds (result : ReadResult) (line : Line) (world : σ) : List Round :=
  match prepareFragment line with
  | none => []
  | some line =>
      match result with
      | .bytes chunk =>
          let block := line.fragment.getD []
          ⟨line, [⟨.read, line.fragmentOffset, chunk.length, block.length⟩]⟩ ::
            match writeAt block line.fragmentOffset chunk with
            | none => []
            | some fragment =>
                handleMessageRounds getMessageLength handleTransaction
                  (line.fragmentOffset + chunk.length + 2)
                  { line with
                    fragment := some fragment
                    fragmentOffset := line.fragmentOffset + chunk.length } world
      | _ => [⟨line, []⟩]

end Rounds

/-! ## Bounds of the lines -/

/-- The block of a line has its size, the bytes in use are inside, and at most one page is
free. -/
def Line.Bounded (line : Line) : Prop :=
  ∀ block, line.fragment = some block → block.length = line.fragmentSize ∧
    line.fragmentOffset ≤ line.fragmentSize ∧
    line.fragmentSize - line.fragmentOffset ≤ fragmentPageSize

theorem Holds.bounded {line : Line} {block bytes : List UInt8} (holds : Holds line block bytes) :
    line.Bounded := by
  intro other found
  cases holds.found.symm.trans found
  have used := holds.used
  exact ⟨holds.sized, holds.inside, by omega⟩

theorem Pending.bounded {line : Line} {bytes : List UInt8} (pending : Pending line bytes) :
    line.Bounded := by
  cases pending with
  | none missing =>
      intro block found
      cases missing.symm.trans found
  | some holds => exact holds.bounded

/-- What each part of a call keeps: the bounds hold when it begins, and it writes inside, but
for the `'\0'` behind a message. -/
structure Round.Bounded (round : Round) : Prop where
  line : round.line.Bounded
  inside : ∀ write ∈ round.writes, write.writer ≠ .terminator → write.Inside
  remainder : ∀ write ∈ round.writes, write.writer = .memcpy → write.length ≤ fragmentPageSize

/-- All writes of a part of a call are inside. -/
def Round.Inside (round : Round) : Prop := ∀ write ∈ round.writes, write.Inside

section Messages

variable {σ : Type} {getMessageLength : List UInt8 → Int}
variable {handleTransaction : σ → List UInt8 → σ × Int}
variable {line : Line} {block bytes : List UInt8}

theorem Holds.idle (holds : Holds line block bytes) :
    (Round.mk line []).Bounded ∧ (Round.mk line []).Inside :=
  ⟨⟨holds.bounded, by simp, by simp⟩, by simp [Round.Inside]⟩

theorem mem_messageWrites {messageLength : Nat} {write : BlockWrite}
    (member : write ∈ messageWrites line block messageLength) :
    write = ⟨.memcpy, 0, line.fragmentOffset - messageLength, fragmentPageSize⟩ ∨
      write = ⟨.terminator, messageLength, 1, block.length⟩ := by
  unfold messageWrites at member
  split at member
  · simpa using member
  · exact Or.inr (List.mem_singleton.mp member)

/-- The copy of the remainder stays in its page. -/
theorem Holds.message_bounded (holds : Holds line block bytes) {messageLength : Nat}
    (fits : bytes.length - messageLength < fragmentPageSize) :
    (Round.mk line (messageWrites line block messageLength)).Bounded := by
  rw [holds.length_eq] at fits
  refine ⟨holds.bounded, fun write member other => ?_, fun write member copied => ?_⟩
  · rcases mem_messageWrites member with rfl | rfl
    · simpa [BlockWrite.Inside] using fits.le
    · exact absurd rfl other
  · rcases mem_messageWrites member with rfl | rfl
    · exact fits.le
    · cases copied

/-- The `'\0'` behind a message is inside unless the message fills the block. -/
theorem Holds.message_inside_iff (holds : Holds line block bytes) {messageLength : Nat}
    (inside : messageLength ≤ bytes.length)
    (fits : bytes.length - messageLength < fragmentPageSize) :
    (Round.mk line (messageWrites line block messageLength)).Inside ↔
      messageLength < line.fragmentSize := by
  have length_eq := holds.length_eq
  have offset_le := holds.inside
  simp only [Round.Inside, messageWrites]
  split
  · rename_i more
    simp only [List.mem_cons, List.not_mem_nil, or_false, forall_eq_or_imp, forall_eq,
      BlockWrite.Inside, holds.sized]
    omega
  · simp only [List.mem_singleton, forall_eq, BlockWrite.Inside, holds.sized]
    omega

theorem handleMessageRounds_closed (fuel : Nat) (line : Line) (world : σ) :
    handleMessageRounds getMessageLength handleTransaction fuel (closeLine line) world = [] := by
  cases fuel with
  | zero => rfl
  | succ fuel => rfl

/-- One round of the loop that finds a whole message. -/
theorem handleMessageRounds_complete (fuel : Nat) {middle : Line} (world : σ)
    (holds : Holds line block bytes) (complete : Complete getMessageLength bytes)
    (taken : takeMessage line block (getMessageLength bytes).toNat = some middle) :
    handleMessageRounds getMessageLength handleTransaction (fuel + 1) line world =
      ⟨line, messageWrites line block (getMessageLength bytes).toNat⟩ ::
        handleMessageRounds getMessageLength handleTransaction fuel
          (if (handleTransaction world (bytes.take (getMessageLength bytes).toNat)).2 < 0 then
            closeLine middle else middle)
          (handleTransaction world (bytes.take (getMessageLength bytes).toNat)).1 := by
  have positive := complete.1
  have inside := complete.2
  have length_eq := holds.length_eq
  have message_eq : block.take (getMessageLength bytes).toNat =
      bytes.take (getMessageLength bytes).toNat := by
    rw [← holds.content, List.take_take, holds.content, min_eq_left (by omega)]
  rw [handleMessageRounds, holds.found]
  simp only [holds.content]
  rw [if_neg (by omega), if_pos (length_eq ▸ complete), taken, message_eq]

/-- A message of a line fills its block. -/
def Fills (getMessageLength : List UInt8 → Int) (line : Line) (bytes : List UInt8) : Prop :=
  Complete getMessageLength bytes ∧ getMessageLength bytes = line.fragmentSize

/-- What a message leaves behind in a new page does not fill it. -/
theorem not_fills_remainder (pending : Pending line bytes)
    (small : bytes.length < fragmentPageSize) : ¬ Fills getMessageLength line bytes := by
  rintro ⟨⟨positive, inside⟩, full⟩
  cases pending with
  | none missing => simp at inside; omega
  | some holds =>
      obtain ⟨pages, whole⟩ := holds.whole
      have large : fragmentPageSize * 1 ≤ line.fragmentSize := by
        rw [whole]
        exact Nat.mul_le_mul_left _ (by omega)
      omega

/-- The rounds over the messages of a line write inside of their blocks unless a message fills
the block they begin with. -/
theorem handleMessageRounds_spec {fuel : Nat} {line : Line} {bytes : List UInt8} (world : σ)
    (pending : Pending line bytes) (enough : bytes.length + 1 < fuel)
    (fits : Complete getMessageLength bytes →
      bytes.length - (getMessageLength bytes).toNat < fragmentPageSize) :
    (∀ round ∈ handleMessageRounds getMessageLength handleTransaction fuel line world,
      round.Bounded) ∧
    ((∀ round ∈ handleMessageRounds getMessageLength handleTransaction fuel line world,
      round.Inside) ↔ ¬ Fills getMessageLength line bytes) := by
  induction fuel generalizing line bytes world with
  | zero => omega
  | succ fuel ih =>
      cases pending with
      | none missing =>
          have empty : handleMessageRounds getMessageLength handleTransaction (fuel + 1) line
              world = [] := by rw [handleMessageRounds, missing]
          rw [empty]
          simp [Fills, not_complete_nil]
      | @some block _ holds =>
          have length_eq := holds.length_eq
          by_cases complete : Complete getMessageLength bytes
          · have positive := complete.1
            have inside := complete.2
            have offset_le := holds.inside
            have short := fits complete
            obtain ⟨middle, taken, -, middlePending⟩ :=
              holds.takeMessage (by omega) short.le
            have remainder : (bytes.drop (getMessageLength bytes).toNat).length <
                fragmentPageSize := by rwa [List.length_drop]
            -- The rest of the loop works on a page that the remainder does not fill.
            have later : ∀ round ∈ handleMessageRounds getMessageLength handleTransaction fuel
                (if (handleTransaction world (bytes.take (getMessageLength bytes).toNat)).2 < 0
                  then closeLine middle else middle)
                (handleTransaction world (bytes.take (getMessageLength bytes).toNat)).1,
                round.Bounded ∧ round.Inside := by
              split
              · rw [handleMessageRounds_closed]
                simp
              · obtain ⟨bounded, insideIff⟩ := ih _ middlePending
                  (by rw [List.length_drop]; omega) (fun _ => by omega)
                exact fun round member => ⟨bounded round member,
                  insideIff.mpr (not_fills_remainder middlePending remainder) round member⟩
            rw [handleMessageRounds_complete fuel world holds complete taken]
            have first := holds.message_inside_iff (by omega) short
            refine ⟨?_, ?_⟩
            · rintro round (_ | ⟨_, member⟩)
              · exact holds.message_bounded short
              · exact (later round member).1
            · rw [List.forall_mem_cons, first,
                and_iff_left (fun round member => (later round member).2), Fills]
              simp only [complete, true_and]
              omega
          · have quiet : handleMessageRounds getMessageLength handleTransaction (fuel + 1) line
                world = [⟨line, []⟩] := by
              rw [handleMessageRounds, holds.found]
              simp only [holds.content]
              rw [handleMessageRounds_closed, if_neg (c := 0 < _ ∧ _) (length_eq ▸ complete),
                ite_self]
            rw [quiet]
            simp [Fills, complete, holds.idle]

/-- The loop leaves a block that holds the bytes of the line, or none. -/
theorem handleMessage_pending {fuel : Nat} {line after : Line} {bytes : List UInt8} {world : σ}
    {result : σ × List (List UInt8 × Bool)} (pending : Pending line bytes)
    (fits : Complete getMessageLength bytes →
      bytes.length - (getMessageLength bytes).toNat ≤ fragmentPageSize)
    (handled : handleMessage getMessageLength handleTransaction fuel line world =
      some (after, result)) : ∃ rest, Pending after rest := by
  induction fuel generalizing line bytes world result with
  | zero => cases handled
  | succ fuel ih =>
      have closed {closing : Line} {world : σ} {result : σ × List (List UInt8 × Bool)}
          (handled : handleMessage getMessageLength handleTransaction fuel (closeLine closing)
            world = some (after, result)) : ∃ rest, Pending after rest :=
        ih (.none rfl) (fun complete => absurd complete not_complete_nil) handled
      cases pending with
      | none missing =>
          rw [handleMessage, missing] at handled
          cases handled
          exact ⟨[], .none missing⟩
      | @some block _ holds =>
          have length_eq := holds.length_eq
          by_cases complete : Complete getMessageLength bytes
          · have positive := complete.1
            have inside := complete.2
            obtain ⟨middle, taken, -, middlePending⟩ :=
              holds.takeMessage (by omega) (fits complete)
            rw [handleMessage_complete fuel world holds complete taken] at handled
            obtain ⟨⟨line', rest⟩, goes, same⟩ := Option.bind_eq_some_iff.mp handled
            cases same
            split at goes
            · exact closed goes
            · refine ih middlePending (fun _ => (Nat.sub_le _ _).trans ?_) goes
              rw [List.length_drop]
              exact fits complete
          · rw [handleMessage, holds.found] at handled
            simp only [holds.content] at handled
            split at handled
            · exact closed handled
            · rw [if_neg (length_eq ▸ complete)] at handled
              cases handled
              exact ⟨bytes, .some holds⟩

end Messages

/-! ## One call -/

section Calls

variable {σ : Type} {getMessageLength : List UInt8 → Int}
variable {handleTransaction : σ → List UInt8 → σ × Int} {headerLength : Nat}
variable {line prepared : Line} {bytes chunk : List UInt8}

/-- A read completes a message that begins its block and ends at a page boundary, with nothing
behind it. -/
def EndsPage (getMessageLength : List UInt8 → Int) (bytes : List UInt8) : Prop :=
  0 < bytes.length ∧ fragmentPageSize ∣ bytes.length ∧ getMessageLength bytes = bytes.length

/-- The pages of a prepared block are full just when its bytes end at a page boundary. -/
theorem fills_iff_endsPage {block fragment : List UInt8} {after : Line}
    (holds : Holds prepared block bytes) (some_read : 1 ≤ chunk.length)
    (filled : Holds after fragment (bytes ++ chunk))
    (same : after.fragmentSize = prepared.fragmentSize) :
    Fills getMessageLength after (bytes ++ chunk) ↔ EndsPage getMessageLength (bytes ++ chunk) := by
  have length_eq := holds.length_eq
  have all_eq := filled.length_eq
  have used := holds.used
  have inside := filled.inside
  obtain ⟨pages, whole⟩ := holds.whole
  rw [List.length_append] at all_eq
  have full : fragmentPageSize ∣ (bytes ++ chunk).length ↔
      (bytes ++ chunk).length = prepared.fragmentSize := by
    rw [List.length_append]
    constructor
    · rintro ⟨count, product⟩
      have more : fragmentPageSize * pages < fragmentPageSize * count := by
        rw [Nat.mul_succ] at whole
        omega
      have fewer : fragmentPageSize * count ≤ fragmentPageSize * (pages + 1) := by
        omega
      have above := Nat.lt_of_mul_lt_mul_left more
      have below := Nat.le_of_mul_le_mul_left fewer (by decide)
      obtain rfl : count = pages + 1 := by omega
      omega
    · intro product
      exact ⟨pages + 1, by omega⟩
  unfold Fills EndsPage
  rw [full, same]
  have positive : 0 < (bytes ++ chunk).length := by
    rw [List.length_append]
    omega
  constructor
  · rintro ⟨⟨-, atMost⟩, equal⟩
    rw [equal] at atMost
    rw [List.length_append] at atMost positive ⊢
    exact ⟨positive, by omega, by omega⟩
  · rintro ⟨-, full, ends⟩
    exact ⟨⟨by omega, ends.le⟩, by omega⟩

theorem not_endsPage_of_incomplete (incomplete : ¬ Complete getMessageLength bytes) :
    ¬ EndsPage getMessageLength bytes := by
  rintro ⟨positive, -, ends⟩
  exact incomplete ⟨by omega, ends.le⟩

/-- A call whose read returns no bytes writes nothing. -/
theorem idle_spec {block : List UInt8} (holds : Holds prepared block bytes)
    (incomplete : ¬ Complete getMessageLength bytes) :
    (∀ round ∈ [Round.mk prepared []], round.Bounded) ∧
      ((∀ round ∈ [Round.mk prepared []], round.Inside) ↔
        ¬ EndsPage getMessageLength (bytes ++ [])) := by
  rw [List.append_nil]
  simp [holds.idle, not_endsPage_of_incomplete incomplete]

/-- `HandleAcceptFD` writes inside of its blocks unless its read ends at a page boundary together
with a message. -/
theorem handleAcceptRounds_spec (headerOnly : HeaderOnly headerLength getMessageLength)
    (small : headerLength ≤ fragmentPageSize) {result : ReadResult} (world : σ)
    (pending : Pending line bytes) (incomplete : ¬ Complete getMessageLength bytes)
    (preparedEq : prepareFragment line = some prepared)
    (possible : ∀ chunk, result = .bytes chunk → 1 ≤ chunk.length ∧
      chunk.length ≤ prepared.fragmentSize - prepared.fragmentOffset) :
    (∀ round ∈ handleAcceptRounds getMessageLength handleTransaction result line world,
      round.Bounded) ∧
    ((∀ round ∈ handleAcceptRounds getMessageLength handleTransaction result line world,
      round.Inside) ↔ ¬ EndsPage getMessageLength (bytes ++ result.chunk)) := by
  obtain ⟨-, block, holds⟩ := prepareFragment_spec pending preparedEq
  unfold handleAcceptRounds
  rw [preparedEq]
  cases result with
  | error again => exact idle_spec holds incomplete
  | closed => exact idle_spec holds incomplete
  | bytes chunk =>
      obtain ⟨some_read, room⟩ := possible chunk rfl
      obtain ⟨fragment, written, filled⟩ := holds.read room
      have bounded := holds.bounded
      have inside := holds.inside
      obtain ⟨rest_bounded, rest_inside⟩ :=
        @handleMessageRounds_spec σ getMessageLength handleTransaction
          (prepared.fragmentOffset + chunk.length + 2) _ _ world (.some filled)
          (by rw [filled.length_eq]; exact Nat.lt_succ_self _)
          (fits_page headerOnly small holds incomplete room)
      have read_inside : BlockWrite.Inside
          ⟨.read, prepared.fragmentOffset, chunk.length, block.length⟩ := by
        simp only [BlockWrite.Inside, holds.sized]
        omega
      simp only [holds.found, Option.getD_some, written, List.forall_mem_cons, rest_inside,
        ReadResult.chunk, fills_iff_endsPage holds some_read filled rfl]
      refine ⟨⟨⟨bounded, ?_, ?_⟩, rest_bounded⟩, and_iff_right ?_⟩
      · simp [read_inside]
      · simp
      · simp [Round.Inside, read_inside]

/-- The block of a line after a call. -/
theorem handleAcceptFD_pending (headerOnly : HeaderOnly headerLength getMessageLength)
    (small : headerLength ≤ fragmentPageSize) {result : ReadResult} {world : σ} {after : Line}
    {outcome : σ × List (List UInt8 × Bool)}
    (pending : Pending line bytes) (incomplete : ¬ Complete getMessageLength bytes)
    (preparedEq : prepareFragment line = some prepared)
    (possible : ∀ chunk, result = .bytes chunk → 1 ≤ chunk.length ∧
      chunk.length ≤ prepared.fragmentSize - prepared.fragmentOffset)
    (handled : handleAcceptFD getMessageLength handleTransaction result line world =
      some (after, outcome)) : ∃ rest, Pending after rest := by
  obtain ⟨-, block, holds⟩ := prepareFragment_spec pending preparedEq
  cases result with
  | error again =>
      cases again with
      | true =>
          simp only [handleAcceptFD, preparedEq, Option.bind_eq_bind, Option.bind_some,
            Option.some.injEq, Prod.mk.injEq] at handled
          exact ⟨bytes, handled.1 ▸ .some holds⟩
      | false =>
          simp only [handleAcceptFD, preparedEq, Option.bind_eq_bind, Option.bind_some,
            Option.some.injEq, Prod.mk.injEq] at handled
          exact ⟨[], handled.1 ▸ .none rfl⟩
  | closed =>
      simp only [handleAcceptFD, preparedEq, Option.bind_eq_bind, Option.bind_some,
        Option.some.injEq, Prod.mk.injEq] at handled
      exact ⟨[], handled.1 ▸ .none rfl⟩
  | bytes chunk =>
      obtain ⟨-, room⟩ := possible chunk rfl
      obtain ⟨fragment, written, filled⟩ := holds.read room
      simp only [handleAcceptFD, preparedEq, holds.found, Option.getD_some, written,
        Option.bind_eq_bind, Option.bind_some] at handled
      exact handleMessage_pending (.some filled)
        (fun complete => (fits_page headerOnly small holds incomplete room complete).le) handled

end Calls

/-! ## Histories -/

section Server

variable {σ : Type} {getMessageLength : List UInt8 → Int}
variable {handleTransaction : σ → List UInt8 → σ × Int} {headerLength : Nat}

/-- Every line has a block that holds its bytes, or none; also the lines without connection. -/
def Buffered (s : Server σ) : Prop := ∀ index, ∃ bytes, Pending (s.lines index) bytes

theorem Buffered.update {s : Server σ} (buffered : Buffered s) (index : Fin 32) {line : Line}
    (pending : ∃ bytes, Pending line bytes) (other : Fin 32) :
    ∃ bytes, Pending (Function.update s.lines index line other) bytes := by
  by_cases same : other = index
  · subst same
    rwa [Function.update_self]
  · rw [Function.update_of_ne same]
    exact buffered other

/-- The connection of a line does not matter for its block. -/
theorem Pending.withConnection {line : Line} {bytes : List UInt8} (pending : Pending line bytes)
    (acceptfd : Option Nat) : Pending { line with acceptfd := acceptfd } bytes := by
  cases pending with
  | none missing => exact .none missing
  | some holds =>
      exact .some ⟨holds.found, holds.sized, holds.whole, holds.inside, holds.used, holds.content⟩

theorem Step.buffered (headerOnly : HeaderOnly headerLength getMessageLength)
    (small : headerLength ≤ fragmentPageSize) {s t : Server σ}
    (step : Step getMessageLength handleTransaction s t)
    (consistent : Consistent getMessageLength s) (buffered : Buffered s) : Buffered t := by
  cases step with
  | accept index => exact buffered.update index ⟨[], .none rfl⟩
  | refuse index => exact buffered
  | clear index accepted =>
      obtain ⟨bytes, pending⟩ := buffered index
      exact buffered.update index ⟨bytes, pending.withConnection none⟩
  | @read index connection prepared line world log result accepted preparedEq possible handled =>
      obtain ⟨-, pending⟩ := consistent.waiting index connection accepted
      exact buffered.update index (handleAcceptFD_pending headerOnly small pending
        (not_complete_rest _ _) preparedEq possible handled)

theorem Reachable.buffered (headerOnly : HeaderOnly headerLength getMessageLength)
    (small : headerLength ≤ fragmentPageSize) {s : Server σ}
    (reachable : Reachable getMessageLength handleTransaction s) : Buffered s := by
  induction reachable with
  | start world => exact fun _ => ⟨[], .none rfl⟩
  | step before step ih => exact step.buffered headerOnly small (before.consistent headerOnly small) ih

/-- Over every history the bounds hold on each line, `read` and `memcpy` write inside of their
blocks and the remainder of a message fits into its page.  A call also writes its `'\0'`s
inside just when the bytes it begins with are not a message that ends at a page boundary. -/
theorem reachable_buffers (headerOnly : HeaderOnly headerLength getMessageLength)
    (small : headerLength ≤ fragmentPageSize) {s : Server σ}
    (reachable : Reachable getMessageLength handleTransaction s) :
    (∀ index, (s.lines index).Bounded) ∧
    ∀ index connection prepared result, (s.lines index).acceptfd = some connection →
      prepareFragment (s.lines index) = some prepared →
      (∀ chunk, result = .bytes chunk → 1 ≤ chunk.length ∧
        chunk.length ≤ prepared.fragmentSize - prepared.fragmentOffset) →
      (handleAcceptFD getMessageLength handleTransaction result (s.lines index)
        s.world).isSome ∧
      (∀ round ∈ handleAcceptRounds getMessageLength handleTransaction result (s.lines index)
        s.world, round.Bounded) ∧
      ((∀ round ∈ handleAcceptRounds getMessageLength handleTransaction result (s.lines index)
        s.world, round.Inside) ↔
        ¬ EndsPage getMessageLength ((s.lines index).waiting ++ result.chunk)) := by
  have consistent := reachable.consistent headerOnly small
  have buffered := reachable.buffered headerOnly small
  refine ⟨fun index => ?_, fun index connection prepared result accepted preparedEq possible => ?_⟩
  · obtain ⟨bytes, pending⟩ := buffered index
    exact pending.bounded
  · obtain ⟨-, pending⟩ := consistent.waiting index connection accepted
    obtain ⟨after, finalWorld, log, handled, -⟩ :=
      @Consistent.serves σ getMessageLength handleTransaction headerLength headerOnly small s
        consistent index connection accepted prepared result preparedEq possible
    obtain ⟨bounded, inside⟩ := @handleAcceptRounds_spec σ getMessageLength handleTransaction
      headerLength _ _ _ headerOnly small result s.world pending (not_complete_rest _ _) preparedEq
      possible
    rw [pending.waiting_eq]
    exact ⟨by rw [handled]; rfl, bounded, inside⟩

/-- A message with header `A8187`, which takes up just one page. -/
def pageMessage : List UInt8 := [65, 56, 49, 56, 55] ++ List.replicate 8187 120

theorem length_pageMessage : pageMessage.length = fragmentPageSize := by
  simp only [pageMessage, List.length_append, List.length_replicate]
  rfl

theorem pageMessage_endsPage : EndsPage bancsMessageLength pageMessage := by
  have header : (pageMessage.drop 1).take 4 = [56, 49, 56, 55] := rfl
  have first : pageMessage.head? = some 65 := rfl
  have length_eq : bancsMessageLength pageMessage = 8192 := by
    rw [bancsMessageLength, header, length_pageMessage, first]
    decide
  refine ⟨by rw [length_pageMessage]; decide, by rw [length_pageMessage], ?_⟩
  rw [length_eq, length_pageMessage]
  rfl

theorem reachable_buffers_part : ∃ s : Server Unit,
    Reachable bancsMessageLength (fun world _ => (world, 0)) s ∧
    ∀ round ∈ handleAcceptRounds bancsMessageLength (fun world _ => (world, 0))
      (.bytes [65, 48, 48, 48, 49, 120, 65]) (s.lines 0) s.world,
      round.Bounded ∧ round.Inside := by
  have opened : Reachable bancsMessageLength (fun world _ => (world, 0)) _ :=
    .step (.start ()) (.accept 0)
  obtain ⟨-, calls⟩ := reachable_buffers bancsMessageLength_headerOnly (by decide) opened
  obtain ⟨-, bounded, inside⟩ := calls 0 0 _ (.bytes [65, 48, 48, 48, 49, 120, 65]) rfl rfl (by
    rintro _ ⟨⟩
    decide)
  refine ⟨_, opened, fun round member => ⟨bounded round member, inside.mpr ?_ round member⟩⟩
  rintro ⟨-, whole, -⟩
  revert whole
  decide

theorem not_reachable_buffers : ∃ s : Server Unit,
    Reachable bancsMessageLength (fun world _ => (world, 0)) s ∧
    (s.lines 0).acceptfd = some 0 ∧ (s.lines 0).fragment = none ∧
    pageMessage.length = fragmentPageSize ∧
    ∃ round ∈ handleAcceptRounds bancsMessageLength (fun world _ => (world, 0))
      (.bytes pageMessage) (s.lines 0) s.world, ∃ write ∈ round.writes, ¬ write.Inside := by
  have opened : Reachable bancsMessageLength (fun world _ => (world, 0)) _ :=
    .step (.start ()) (.accept 0)
  have possible : ∀ chunk, ReadResult.bytes pageMessage = .bytes chunk →
      1 ≤ chunk.length ∧ chunk.length ≤ fragmentPageSize - 0 := by
    rintro _ ⟨⟩
    rw [length_pageMessage]
    decide
  obtain ⟨-, inside⟩ := @handleAcceptRounds_spec Unit bancsMessageLength
    (fun world _ => (world, 0)) 5 (handleListenFD 0 ⟨none, 0, 0, none⟩) _ []
    bancsMessageLength_headerOnly (by decide) _ () (.none rfl) not_complete_nil rfl possible
  refine ⟨_, opened, rfl, rfl, length_pageMessage, ?_⟩
  have outside := mt inside.mp (not_not.mpr pageMessage_endsPage)
  simp only [Round.Inside, not_forall, exists_prop] at outside
  exact outside

end Server

end FrameCode.AsynccomServer
