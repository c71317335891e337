import FrameCode.YlSocket
import Mathlib.Tactic.IntervalCases

/-!
# What a peer reads from the length heads of `yl_socket.c`

Each flag of `SendMsgToSocket` has its own head.  The decoders here are those of a peer: two
bytes with the high one first, a fixed number of digits, or the byte `FF` and three digits.
-/

namespace FrameCode.YlSocket

open CText

/-! ## The decoders -/

/-- The number in two bytes, the high one first. -/
def decodeHexByteTwo : List UInt8 → Option Nat
  | [high, low] => some (high.toNat * 256 + low.toNat)
  | _ => none

/-- The number in exactly `width` digits. -/
def decodeAscii (width : Nat) (head : List UInt8) : Option Nat :=
  if head.length = width ∧ head.all isDigit = true then some (digitsValue head) else none

/-- The number behind the byte `FF`. -/
def decodeFfAscii (width : Nat) : List UInt8 → Option Nat
  | 255 :: digits => decodeAscii width digits
  | _ => none

/-- The number that the head of a flag stands for. -/
def decodeHead (iHeadFlag : Int) (head : List UInt8) : Option Nat :=
  match iHeadFlag with
  | 1 | 2 => decodeHexByteTwo head
  | 3 | 4 => decodeAscii 4 head
  | 5 => decodeFfAscii 3 head
  | 6 => decodeAscii 5 head
  | 7 => decodeAscii 9 head
  | 8 => decodeAscii 8 head
  | _ => none

/-- The part of the number of a head that is not the message: `HEXBYTE_TWO_HAS_HEAD` and
`ASCII_FOUR_HAS_HEAD` count the head too. -/
def countedHead (iHeadFlag : Int) (head : List UInt8) : Nat :=
  if iHeadFlag = 1 ∨ iHeadFlag = 3 then head.length else 0

/-! ## The heads that are sent -/

/-- Two bytes hold every number below `256 * 256`. -/
theorem decodeHexByteTwo_hexByteTwo {n : Int} (nonnegative : 0 ≤ n) (bound : n < 256 * 256) :
    decodeHexByteTwo (hexByteTwo n) = some n.toNat := by
  have high : (UInt8.ofNat (n / 256).toNat).toNat = (n / 256).toNat := by
    rw [UInt8.toNat_ofNat']
    omega
  have low : (UInt8.ofNat (n % 256).toNat).toNat = (n % 256).toNat := by
    rw [UInt8.toNat_ofNat']
    omega
  simp only [hexByteTwo, decodeHexByteTwo, high, low, Option.some.injEq]
  omega

/-- `width` digits hold every number below `10 ^ width`. -/
theorem decodeAscii_padded {width n : Nat} (positive : 0 < width) (bound : n < 10 ^ width) :
    decodeAscii width (padded width n) = some n := by
  have digits : (padded width n).all isDigit = true :=
    List.all_eq_true.mpr (isDigit_padded width n)
  rw [decodeAscii, if_pos ⟨length_padded positive bound, digits⟩, digitsValue_padded]

/-- The limit of each flag rules out that its head is too short for the length. -/
theorem decodeHead_lengthHead {iHeadFlag : Int} {n : Nat} {head : List UInt8}
    (flagged : 1 ≤ iHeadFlag ∧ iHeadFlag ≤ 8) (accepted : lengthHead iHeadFlag n = .ok head) :
    decodeHead iHeadFlag head = some (n + countedHead iHeadFlag head) := by
  obtain ⟨lower, upper⟩ := flagged
  interval_cases iHeadFlag <;> obtain ⟨within, rfl⟩ := limited_eq_ok.mp accepted
  · exact decodeHexByteTwo_hexByteTwo (by omega) (by omega)
  · exact decodeHexByteTwo_hexByteTwo (by omega) (by omega)
  · have counted : countedHead 3 (padded 4 (n + 4)) = 4 :=
      length_padded (by decide) (by omega)
    rw [Int.toNat_natCast, counted]
    exact decodeAscii_padded (by decide) (by omega)
  -- The other flags count the message alone.
  all_goals
    rw [Int.toNat_natCast]
    exact decodeAscii_padded (by decide) (by omega)

/-- Whenever `SendMsgToSocket` returns a positive value with one of the eight heads, that value
is the length of the message, and the bytes written are the head of the flag followed by the
message, whatever parts the transport has taken; a peer reads from the head the length that
was returned, with the size of the head where the head counts itself. -/
theorem sendMsgToSocket_framed {answers : List Answer} {message stream : List UInt8}
    {iDelayTime iHeadFlag returned : Int} (flagged : 1 ≤ iHeadFlag ∧ iHeadFlag ≤ 8)
    (sent : sendMsgToSocket answers message iDelayTime iHeadFlag = some (returned, stream))
    (positive : 0 < returned) :
    returned = message.length ∧
      ∃ head, stream = head ++ message ∧
        decodeHead iHeadFlag head = some (message.length + countedHead iHeadFlag head) := by
  obtain ⟨lengthEq, head, accepted, streamEq⟩ := sendMsgToSocket_eq (by omega) positive sent
  exact ⟨lengthEq, head, streamEq, decodeHead_lengthHead flagged accepted⟩

/-- Three bytes behind a head of two bytes that counts itself, in two writes, the second of
which is interrupted twice. -/
theorem sendMsgToSocket_framed_abc :
    sendMsgToSocket [.interrupted, .moved 2, .moved 1, .interrupted, .interrupted, .moved 2]
        [97, 98, 99] 20 1 = some (3, [0, 5, 97, 98, 99]) ∧
      ∃ head, [0, 5, 97, 98, 99] = head ++ [97, 98, 99] ∧
        decodeHead 1 head = some (3 + countedHead 1 head) := by
  have sent : sendMsgToSocket
      [.interrupted, .moved 2, .moved 1, .interrupted, .interrupted, .moved 2]
      [97, 98, 99] 20 1 = some (3, [0, 5, 97, 98, 99]) := rfl
  exact ⟨sent, (sendMsgToSocket_framed (by decide) sent (by decide)).2⟩

end FrameCode.YlSocket
