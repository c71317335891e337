import FrameCode.CText

/-!
# Message framing of `yl_socket.c`

`SendMsgToSocket` writes a length head and then the message, `CUPSRecvMsg` reads a head of
four digits and then the message.  The transport is a byte stream that answers every `read`
and `write`; how many bytes it moves each time is its own choice.
-/

namespace FrameCode.YlSocket

open CText

/-! ## The transport -/

/-- The answer of the system to a `read` or a `write`: interrupted by a signal, any other
error, an alarm whose handler leaves the call by `longjmp`, or the number of bytes moved. -/
inductive Answer
  | interrupted
  | failed
  | alarm
  | moved (count : Nat)
deriving DecidableEq

/-- `u_read` and `u_write` on up to `size` bytes: they try again when interrupted.  The inner
`none` is an alarm; without an answer the call blocks, and more than `size` bytes are never
moved. -/
def transfer (size : Nat) : List Answer → Option (Option Int × List Answer)
  | [] => none
  | .interrupted :: answers => transfer size answers
  | .failed :: answers => some (some (-1), answers)
  | .alarm :: answers => some (none, answers)
  | .moved count :: answers => if count ≤ size then some (some count, answers) else none

/-! ## The sender -/

/-- `MAX_DATA_LEN`. -/
def maxDataLen : Int := 102400

/-- The format `%0<width>d`. -/
def padded (width n : Nat) : List UInt8 :=
  List.replicate (width - (decimalNat n).length) 48 ++ decimalNat n

/-- Two bytes, the high one first. -/
def hexByteTwo (n : Int) : List UInt8 := [UInt8.ofNat (n / 256).toNat, UInt8.ofNat (n % 256).toNat]

/-- A head, or the code for a message that is too long for it. -/
def limited (iBuflen limit code : Int) (head : List UInt8) : Except Int (List UInt8) :=
  if limit < iBuflen then .error code else .ok head

/-- The head for a value of `iHeadFlag` other than `NO_HEAD`. -/
def lengthHead (iHeadFlag iBuflen : Int) : Except Int (List UInt8) :=
  let iAll := iBuflen.toNat
  match iHeadFlag with
  | 1 => limited iBuflen (256 * 256 - 3) (-1305) (hexByteTwo (iBuflen + 2))
  | 2 => limited iBuflen (256 * 256 - 1) (-1306) (hexByteTwo iBuflen)
  | 3 => limited iBuflen (9999 - 4) (-1307) (padded 4 (iAll + 4))
  | 4 => limited iBuflen 9999 (-1308) (padded 4 iAll)
  | 6 => limited iBuflen 99999 (-1308) (padded 5 iAll)
  | 8 => limited iBuflen 99999999 (-1308) (padded 8 iAll)
  | 7 => limited iBuflen 999999999 (-1308) (padded 9 iAll)
  | 5 => limited iBuflen 999 (-1309) (255 :: padded 3 iAll)
  | _ => .ok []

/-- The loop that writes what is left.  The result is the returned code with all bytes that
were sent; every turn takes an answer of the transport. -/
def sendLoop (iAll : Int) : Nat → List Answer → (left sent : List UInt8) →
    Option (Int × List UInt8)
  | 0, _, _, _ => none
  | fuel + 1, answers, left, sent =>
      match transfer left.length answers with
      | none => none
      | some (none, _) => some (-1300, sent)
      | some (some iLen, answers) =>
          if iLen ≤ 0 then some (-1311, sent)
          else if 0 < (left.drop iLen.toNat).length then
            sendLoop iAll fuel answers (left.drop iLen.toNat) (sent ++ left.take iLen.toNat)
          else some (iAll, sent ++ left.take iLen.toNat)

/-- `NO_HEAD`: a single write. -/
def sendPlain (answers : List Answer) (message : List UInt8) : Option (Int × List UInt8) :=
  match transfer message.length answers with
  | none => none
  | some (none, _) => some (-1300, [])
  | some (some iLen, _) =>
      if iLen ≠ message.length then some (-1304, message.take iLen.toNat)
      else some (message.length, message)

/-- The head, in a single write, and then the loop over the message. -/
def sendHeaded (answers : List Answer) (head message : List UInt8) : Option (Int × List UInt8) :=
  match transfer head.length answers with
  | none => none
  | some (none, _) => some (-1300, [])
  | some (some iLen, rest) =>
      if iLen ≠ head.length then some (-1310, head.take iLen.toNat)
      else sendLoop message.length (answers.length + 1) rest message head

/-- `SendMsgToSocket` on the `iBuflen` bytes of a message, with all bytes that it has sent. -/
def sendMsgToSocket (answers : List Answer) (message : List UInt8) (iDelayTime iHeadFlag : Int) :
    Option (Int × List UInt8) :=
  let iBuflen : Int := message.length
  if iDelayTime < 0 then some (-1301, [])
  else if iHeadFlag < 0 ∨ 9 < iHeadFlag then some (-1302, [])
  else if iBuflen ≤ 0 then some (-1312, [])
  else if iHeadFlag = 0 then
    if maxDataLen < iBuflen then some (-1303, []) else sendPlain answers message
  else
    match lengthHead iHeadFlag iBuflen with
    | .error code => some (code, [])
    | .ok head => sendHeaded answers head message

/-! ## The receiver -/

/-- `CUPS_HEAD_LEN`. -/
def cupsHeadLen : Int := 46

/-- The size of the local buffer of `CUPSRecvMsg`. -/
def tmpBufSize : Int := 2048 + 1

/-- `CUPSRecvMsg` writes behind its local buffer, or returns a code and, if it gets there,
the message. -/
inductive Received
  | overflow
  | returned (code : Int) (message : Option (List UInt8))
deriving DecidableEq

/-- The second half of `CUPSRecvMsg`, once the head has been read as `iAllLen`. -/
def recvBody (stream : List UInt8) (answers : List Answer) (iAllLen : Int) : Option Received := do
  let (second, _) ← transfer (min iAllLen.toNat stream.length) answers
  let iLen ← second
  if iLen < 0 then some (.returned (-1105) none)
  else if tmpBufSize < iLen then some .overflow
  else if iLen ≠ iAllLen then some (.returned (-1106) none)
  else some (.returned iAllLen (some (stream.take iLen.toNat)))

/-- What `CUPSRecvMsg` does after its first read has moved `iLen` bytes. -/
def recvHead (stream : List UInt8) (answers : List Answer) (iLen : Nat) : Option Received :=
  let aczPkgLen := stream.take iLen ++ List.replicate (5 - iLen) 0
  let iAllLen := atoi aczPkgLen
  if aczPkgLen.take 4 = [48, 48, 48, 48] then some (.returned 0 none)
  else if iAllLen < cupsHeadLen then some (.returned (-1107) none)
  else recvBody (stream.drop iLen) answers iAllLen

/-- `CUPSRecvMsg` on the bytes that are sent to it, each of its reads being answered by the
transport.  An alarm leaves it without a result. -/
def cupsRecvMsg (stream : List UInt8) (answers : List Answer) : Option Received := do
  let (first, answers) ← transfer (min 4 stream.length) answers
  let iLen ← first
  if iLen < 0 then some (.returned (-1104) none)
  else recvHead stream answers iLen.toNat

/-! ## What is sent -/

/-- What `u_read` and `u_write` see of the transport. -/
def effective (answers : List Answer) : List Answer := answers.filter (· ≠ .interrupted)

theorem transfer_cases {size : Nat} {answers rest : List Answer} {result : Option Int}
    (answered : transfer size answers = some (result, rest)) :
    ∃ answer, effective answers = answer :: effective rest ∧
      ((answer = .failed ∧ result = some (-1)) ∨ (answer = .alarm ∧ result = none) ∨
        ∃ count, answer = .moved count ∧ count ≤ size ∧ result = some (count : Int)) := by
  induction answers with
  | nil => cases answered
  | cons answer answers ih =>
      cases answer with
      | interrupted => exact ih answered
      | failed =>
          cases answered
          exact ⟨.failed, rfl, Or.inl ⟨rfl, rfl⟩⟩
      | alarm =>
          cases answered
          exact ⟨.alarm, rfl, Or.inr (Or.inl ⟨rfl, rfl⟩)⟩
      | moved count =>
          simp only [transfer] at answered
          split at answered
          · cases answered
            exact ⟨.moved count, rfl, Or.inr (Or.inr ⟨count, rfl, ‹_›, rfl⟩)⟩
          · cases answered

theorem transfer_moved {size count : Nat} {answers rest : List Answer}
    (seen : effective answers = .moved count :: rest) (within : count ≤ size) :
    ∃ answers', transfer size answers = some (some (count : Int), answers') ∧
      effective answers' = rest := by
  induction answers with
  | nil => cases seen
  | cons answer answers ih =>
      cases answer with
      | interrupted => exact ih seen
      | failed => cases seen
      | alarm => cases seen
      | moved other =>
          obtain ⟨same, restEq⟩ := List.cons.inj seen
          cases same
          exact ⟨answers, by simp [transfer, within], restEq⟩

/-- A loop that returns a positive code has sent all that was left. -/
theorem sendLoop_eq {iAll code : Int} (positive : 0 < code) {fuel : Nat} {answers : List Answer}
    {left sent stream : List UInt8}
    (returned : sendLoop iAll fuel answers left sent = some (code, stream)) :
    code = iAll ∧ stream = sent ++ left := by
  induction fuel generalizing answers left sent with
  | zero => cases returned
  | succ fuel ih =>
      simp only [sendLoop] at returned
      split at returned
      · cases returned
      · cases returned
        omega
      · split at returned
        · cases returned
          omega
        · rename_i iLen answers' taken moved
          split at returned
          · obtain ⟨sameCode, rfl⟩ := ih returned
            rw [List.append_assoc, List.take_append_drop]
            exact ⟨sameCode, rfl⟩
          · rename_i all
            have whole : left.take iLen.toNat = left := by
              apply List.take_of_length_le
              rw [List.length_drop] at all
              omega
            cases returned
            rw [whole]
            exact ⟨rfl, rfl⟩

theorem sendHeaded_eq {answers : List Answer} {head message stream : List UInt8} {code : Int}
    (positive : 0 < code) (returned : sendHeaded answers head message = some (code, stream)) :
    code = message.length ∧ stream = head ++ message := by
  simp only [sendHeaded] at returned
  split at returned
  · cases returned
  · cases returned
    omega
  · split at returned
    · cases returned
      omega
    · exact sendLoop_eq positive returned

/-- The code for a message that is too long is negative. -/
theorem lengthHead_error {iHeadFlag iBuflen code : Int}
    (refused : lengthHead iHeadFlag iBuflen = .error code) : code < 0 := by
  unfold lengthHead limited at refused
  dsimp only at refused
  split at refused <;> first | cases refused | (split at refused <;> cases refused; decide)

/-- `SendMsgToSocket` with a flag other than `NO_HEAD` that returns a positive code has sent
the head and the message. -/
theorem sendMsgToSocket_eq {answers : List Answer} {message stream : List UInt8}
    {iDelayTime iHeadFlag code : Int} (headed : iHeadFlag ≠ 0) (positive : 0 < code)
    (returned : sendMsgToSocket answers message iDelayTime iHeadFlag = some (code, stream)) :
    code = message.length ∧
      ∃ head, lengthHead iHeadFlag message.length = .ok head ∧ stream = head ++ message := by
  simp only [sendMsgToSocket, if_neg headed] at returned
  split at returned
  · cases returned
    omega
  · split at returned
    · cases returned
      omega
    · split at returned
      · cases returned
        omega
      · split at returned
        · rename_i refused
          cases returned
          have negative := lengthHead_error refused
          omega
        · rename_i head headEq
          obtain ⟨codeEq, streamEq⟩ := sendHeaded_eq positive returned
          exact ⟨codeEq, head, headEq, streamEq⟩

theorem limited_eq_ok {iBuflen limit code : Int} {head head' : List UInt8} :
    limited iBuflen limit code head = .ok head' ↔ iBuflen ≤ limit ∧ head = head' := by
  unfold limited
  split
  · constructor
    · intro refused
      cases refused
    · rintro ⟨within, -⟩
      omega
  · constructor
    · intro accepted
      cases accepted
      exact ⟨by omega, rfl⟩
    · rintro ⟨-, rfl⟩
      rfl

/-! ## What is received -/

section Head

variable {width n : Nat}

theorem isDigit_padded (width n : Nat) : ∀ byte ∈ padded width n, isDigit byte = true := by
  intro byte member
  rcases List.mem_append.mp member with zero | digit
  · rw [List.eq_of_mem_replicate zero]
    rfl
  · exact isDigit_decimalNat n byte digit

theorem digitsValue_padded (width n : Nat) : digitsValue (padded width n) = n := by
  rw [padded, digitsValue_append, digitsValue_replicate, Nat.zero_mul, Nat.zero_add,
    digitsValue_decimalNat]

theorem length_padded (positive : 0 < width) (bound : n < 10 ^ width) :
    (padded width n).length = width := by
  have short := length_decimalNat_le positive bound
  rw [padded, List.length_append, List.length_replicate]
  omega

/-- The first digits of a head stand for a smaller number, unless they are all of them. -/
theorem digitsValue_take_padded {count : Nat} (positive : 0 < n) (bound : n < 10 ^ width)
    (partly : count < width) : digitsValue ((padded width n).take count) < n := by
  have split := digitsValue_append ((padded width n).take count) ((padded width n).drop count)
  rw [List.take_append_drop, digitsValue_padded, List.length_drop,
    length_padded (by omega) bound] at split
  have large : 2 ≤ 10 ^ (width - count) := by
    calc 2 ≤ 10 ^ 1 := by decide
      _ ≤ 10 ^ (width - count) := Nat.pow_le_pow_right (by decide) (by omega)
  nlinarith

/-- What `atoi` makes of the first digits of a head in a buffer of NULs. -/
theorem atoi_take_padded {count : Nat} (bound : n < 10000) (within : count ≤ 4) :
    atoi ((padded 4 n).take count ++ List.replicate (5 - count) 0) =
      digitsValue ((padded 4 n).take count) := by
  have split := digitsValue_append ((padded 4 n).take count) ((padded 4 n).drop count)
  rw [List.take_append_drop, digitsValue_padded] at split
  have positive : 0 < 10 ^ ((padded 4 n).drop count).length := Nat.pow_pos (by decide)
  have terminated : List.replicate (5 - count) (0 : UInt8) = 0 :: List.replicate (4 - count) 0 := by
    rw [← List.replicate_succ]
    congr 1
    omega
  rw [terminated]
  refine atoi_digits (fun byte member => ?_) (by nlinarith) _
  exact isDigit_padded 4 n byte (List.mem_of_mem_take member)

end Head

/-- The body is delivered when a single read moves all of it, and it fits. -/
theorem recvBody_iff {stream message : List UInt8} {answers : List Answer} {iAllLen code : Int} :
    recvBody stream answers iAllLen = some (.returned code (some message)) ↔
      code = iAllLen ∧ ∃ count rest, effective answers = .moved count :: rest ∧
        (count : Int) = iAllLen ∧ count ≤ stream.length ∧ count ≤ 2049 ∧
        stream.take count = message := by
  simp only [recvBody, Option.bind_eq_bind]
  constructor
  · intro outcome
    simp only [Option.bind_eq_some_iff] at outcome
    obtain ⟨⟨second, rest⟩, answered, iLen, secondEq, outcome⟩ := outcome
    obtain ⟨answer, seen, ⟨-, failed⟩ | ⟨-, alarm⟩ | ⟨count, rfl, within, moved⟩⟩ :=
      transfer_cases answered
    · cases failed.symm.trans secondEq
      simp at outcome
    · cases alarm.symm.trans secondEq
    · cases moved.symm.trans secondEq
      rw [if_neg (by omega), Int.toNat_natCast] at outcome
      split at outcome
      · simp at outcome
      · rename_i small
        split at outcome
        · simp at outcome
        · rename_i all
          cases outcome
          unfold tmpBufSize at small
          exact ⟨rfl, count, _, seen, not_not.mp all, by omega, by omega, rfl⟩
  · rintro ⟨rfl, count, rest, seen, rfl, within, small, rfl⟩
    obtain ⟨answers', answered, -⟩ := transfer_moved seen
      (show count ≤ min (count : Int).toNat stream.length by omega)
    rw [answered]
    simp only [Option.bind_some]
    rw [if_neg (by omega), if_neg (by unfold tmpBufSize; omega), if_neg (by simp),
      Int.toNat_natCast]

section Head

variable {message : List UInt8} {answers : List Answer} {count : Nat}

theorem take_head (bound : message.length < 10000) (within : count ≤ 4) :
    (padded 4 message.length ++ message).take count = (padded 4 message.length).take count :=
  List.take_append_of_le_length (by rwa [length_padded (by decide) bound])

/-- With only a part of the head, another length is taken for that of the message. -/
theorem recvHead_partial (positive : 0 < message.length) (bound : message.length < 10000)
    (partly : count < 4) (body : List UInt8) :
    recvHead (padded 4 message.length ++ message) answers count ≠
      some (.returned message.length (some body)) := by
  intro outcome
  have smaller := digitsValue_take_padded positive bound partly
  simp only [recvHead, take_head bound partly.le, atoi_take_padded bound partly.le] at outcome
  split at outcome
  · simp at outcome
  · split at outcome
    · simp at outcome
    · obtain ⟨sameLength, -⟩ := recvBody_iff.mp outcome
      omega

theorem recvHead_whole (positive : 46 ≤ message.length) (bound : message.length < 10000) :
    recvHead (padded 4 message.length ++ message) answers 4 =
      recvBody message answers message.length := by
  have headLength := length_padded (by decide : 0 < 4) bound
  have all : (padded 4 message.length).take 4 = padded 4 message.length :=
    List.take_of_length_le headLength.le
  have notZeros : (padded 4 message.length ++ List.replicate (5 - 4) 0).take 4 ≠
      [48, 48, 48, 48] := by
    rw [List.take_append_of_le_length headLength.ge, all]
    intro zeros
    have value := digitsValue_padded 4 message.length
    rw [zeros] at value
    have : digitsValue [48, 48, 48, 48] = 0 := rfl
    omega
  have large : ¬ ((message.length : Nat) : Int) < cupsHeadLen := by
    unfold cupsHeadLen
    omega
  have value := @atoi_take_padded message.length 4 bound le_rfl
  rw [all, digitsValue_padded] at value
  simp only [recvHead, take_head bound le_rfl, all, value, if_neg notZeros, if_neg large]
  rw [List.drop_append_of_le_length headLength.ge, List.drop_of_length_le headLength.le,
    List.nil_append]

end Head

/-- A message of 46 to 9999 bytes that `SendMsgToSocket` has sent with a head of four digits
is received as it is, within the local buffer, if and only if the first read moves the four
bytes of the head, the second one the whole message, and the message has at most 2049
bytes. -/
theorem message_delivered_iff {message stream : List UInt8} {iDelayTime : Int}
    {writes : List Answer} (admitted : 46 ≤ message.length ∧ message.length ≤ 9999)
    (sent : sendMsgToSocket writes message iDelayTime 4 =
      some ((message.length : Int), stream)) (reads : List Answer) :
    cupsRecvMsg stream reads = some (.returned message.length (some message)) ↔
      (∃ rest, effective reads = .moved 4 :: .moved message.length :: rest) ∧
        message.length ≤ 2049 := by
  obtain ⟨-, head, accepted, rfl⟩ := sendMsgToSocket_eq (by decide) (by omega) sent
  obtain ⟨-, rfl⟩ := limited_eq_ok.mp accepted
  rw [Int.toNat_natCast]
  have bound : message.length < 10000 := by omega
  have headLength := length_padded (by decide : 0 < 4) bound
  simp only [cupsRecvMsg, Option.bind_eq_bind]
  constructor
  · intro outcome
    simp only [Option.bind_eq_some_iff] at outcome
    obtain ⟨⟨first, answers⟩, answered, iLen, firstEq, outcome⟩ := outcome
    obtain ⟨answer, seen, ⟨-, failed⟩ | ⟨-, alarm⟩ | ⟨count, rfl, within, moved⟩⟩ :=
      transfer_cases answered
    · cases failed.symm.trans firstEq
      simp at outcome
    · cases alarm.symm.trans firstEq
    · cases moved.symm.trans firstEq
      rw [if_neg (by omega), Int.toNat_natCast] at outcome
      obtain rfl : count = 4 := by
        by_contra notWhole
        exact recvHead_partial (by omega) bound (by omega) message outcome
      rw [recvHead_whole admitted.1 bound] at outcome
      obtain ⟨-, count, rest, next, all, -, small, -⟩ := recvBody_iff.mp outcome
      obtain rfl : count = message.length := by omega
      exact ⟨⟨rest, by rw [seen, next]⟩, small⟩
  · rintro ⟨⟨rest, seen⟩, small⟩
    obtain ⟨answers, answered, seenNext⟩ := transfer_moved seen
      (show 4 ≤ min 4 (padded 4 message.length ++ message).length by
        rw [List.length_append]
        omega)
    rw [answered]
    simp only [Option.bind_some]
    rw [if_neg (by decide)]
    change recvHead _ answers 4 = _
    rw [recvHead_whole admitted.1 bound, recvBody_iff]
    exact ⟨rfl, message.length, rest, seenNext, rfl, le_rfl, small, List.take_length⟩

/-- A message of 46 letters. -/
def shortMessage : List UInt8 := List.replicate 46 65

/-- The message goes out in two writes, one of them interrupted first. -/
theorem sent_shortMessage :
    sendMsgToSocket [.moved 4, .moved 40, .interrupted, .moved 6] shortMessage 20 4 =
      some (46, padded 4 46 ++ shortMessage) := rfl

theorem message_delivered_short :
    cupsRecvMsg (padded 4 46 ++ shortMessage) [.interrupted, .moved 4, .moved 46] =
      some (.returned 46 (some shortMessage)) :=
  (message_delivered_iff (by decide) sent_shortMessage _).mpr ⟨⟨[], rfl⟩, by decide⟩

/-- Three bytes of the head are taken for the length 4. -/
theorem not_message_delivered :
    ¬ ∀ (message stream : List UInt8) (iDelayTime : Int) (writes reads : List Answer)
      (received : Received), 46 ≤ message.length ∧ message.length ≤ 9999 →
      sendMsgToSocket writes message iDelayTime 4 = some ((message.length : Int), stream) →
      (∀ answer ∈ reads, ∃ count, 0 < count ∧ answer = .moved count) →
      cupsRecvMsg stream reads = some received →
        received = .returned message.length (some message) := by
  intro delivered
  have received : cupsRecvMsg (padded 4 46 ++ shortMessage) [.moved 3] =
      some (.returned (-1107) none) := rfl
  have same := delivered shortMessage _ 20 _ [.moved 3] _ (by decide) sent_shortMessage
    (by simp) received
  cases same

end FrameCode.YlSocket
