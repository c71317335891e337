import Mathlib.Data.List.Basic
import Mathlib.Tactic.Common

/-!
# Messages in a stream

A stream of bytes is cut into messages by a function that reads the length of the
next message from the first bytes of the stream.  When the length only depends on
a header of fixed size, the messages of a stream are found in the same way however
the stream arrives.
-/

namespace FrameCode.StreamFraming

variable {α : Type} {length : List α → Int}

/-- The length is zero as long as the header is not complete, and then depends on
the header only. -/
structure HeaderOnly (headerLength : Nat) (length : List α → Int) : Prop where
  short : ∀ bytes, bytes.length < headerLength → length bytes = 0
  header : ∀ bytes other, headerLength ≤ bytes.length → headerLength ≤ other.length →
    bytes.take headerLength = other.take headerLength → length bytes = length other

/-- The stream starts with a whole message. -/
def Complete (length : List α → Int) (bytes : List α) : Prop :=
  0 < length bytes ∧ length bytes ≤ bytes.length

instance (bytes : List α) : Decidable (Complete length bytes) :=
  inferInstanceAs (Decidable (_ ∧ _))

/-- The whole messages at the start of a stream. -/
def messages (length : List α → Int) (bytes : List α) : List (List α) :=
  if Complete length bytes then
    bytes.take (length bytes).toNat :: messages length (bytes.drop (length bytes).toNat)
  else []
termination_by bytes.length
decreasing_by
  rename_i complete
  obtain ⟨positive, inside⟩ := complete
  simp only [List.length_drop]
  omega

/-- What is left of a stream behind its whole messages. -/
def rest (length : List α → Int) (bytes : List α) : List α :=
  if Complete length bytes then rest length (bytes.drop (length bytes).toNat) else bytes
termination_by bytes.length
decreasing_by
  rename_i complete
  obtain ⟨positive, inside⟩ := complete
  simp only [List.length_drop]
  omega

theorem messages_of_complete {bytes : List α} (complete : Complete length bytes) :
    messages length bytes =
      bytes.take (length bytes).toNat :: messages length (bytes.drop (length bytes).toNat) := by
  rw [messages, if_pos complete]

theorem messages_of_not_complete {bytes : List α} (incomplete : ¬ Complete length bytes) :
    messages length bytes = [] := by
  rw [messages, if_neg incomplete]

theorem rest_of_complete {bytes : List α} (complete : Complete length bytes) :
    rest length bytes = rest length (bytes.drop (length bytes).toNat) := by
  rw [rest, if_pos complete]

theorem rest_of_not_complete {bytes : List α} (incomplete : ¬ Complete length bytes) :
    rest length bytes = bytes := by
  rw [rest, if_neg incomplete]

/-- The messages and the rest make up the stream. -/
theorem messages_flatten (length : List α → Int) (bytes : List α) :
    (messages length bytes).flatten ++ rest length bytes = bytes := by
  induction bytes using messages.induct length with
  | case1 bytes complete ih =>
      rw [messages_of_complete complete, rest_of_complete complete, List.flatten_cons,
        List.append_assoc, ih, List.take_append_drop]
  | case2 bytes incomplete =>
      rw [messages_of_not_complete incomplete, rest_of_not_complete incomplete]
      rfl

theorem not_complete_rest (length : List α → Int) (bytes : List α) :
    ¬ Complete length (rest length bytes) := by
  induction bytes using rest.induct length with
  | case1 bytes complete ih => rwa [rest_of_complete complete]
  | case2 bytes incomplete => rwa [rest_of_not_complete incomplete]

namespace HeaderOnly

variable {headerLength : Nat}

theorem length_append (headerOnly : HeaderOnly headerLength length) {bytes : List α}
    (whole : headerLength ≤ bytes.length) (more : List α) :
    length (bytes ++ more) = length bytes := by
  apply headerOnly.header _ _ (by simp; omega) whole
  rw [List.take_append_of_le_length whole]

theorem le_of_complete (headerOnly : HeaderOnly headerLength length) {bytes : List α}
    (complete : Complete length bytes) : headerLength ≤ bytes.length := by
  by_contra shorter
  have zero := headerOnly.short bytes (by omega)
  have positive := complete.1
  omega

theorem complete_append (headerOnly : HeaderOnly headerLength length) {bytes : List α}
    (complete : Complete length bytes) (more : List α) : Complete length (bytes ++ more) := by
  have same := headerOnly.length_append (headerOnly.le_of_complete complete) more
  obtain ⟨positive, inside⟩ := complete
  refine ⟨by rwa [same], ?_⟩
  rw [same, List.length_append]
  omega

/-- Whole messages stay what they are when more bytes arrive. -/
theorem messages_append (headerOnly : HeaderOnly headerLength length) (bytes more : List α) :
    messages length (bytes ++ more) =
      messages length bytes ++ messages length (rest length bytes ++ more) := by
  induction bytes using messages.induct length with
  | case1 bytes complete ih =>
      have same := headerOnly.length_append (headerOnly.le_of_complete complete) more
      have inside : (length bytes).toNat ≤ bytes.length := by
        have := complete.2
        omega
      rw [messages_of_complete (headerOnly.complete_append complete more), same,
        messages_of_complete complete, rest_of_complete complete,
        List.take_append_of_le_length inside, List.drop_append_of_le_length inside, ih]
      rfl
  | case2 bytes incomplete =>
      rw [messages_of_not_complete incomplete, rest_of_not_complete incomplete]
      rfl

theorem rest_append (headerOnly : HeaderOnly headerLength length) (bytes more : List α) :
    rest length (bytes ++ more) = rest length (rest length bytes ++ more) := by
  induction bytes using messages.induct length with
  | case1 bytes complete ih =>
      have same := headerOnly.length_append (headerOnly.le_of_complete complete) more
      have inside : (length bytes).toNat ≤ bytes.length := by
        have := complete.2
        omega
      rw [rest_of_complete (headerOnly.complete_append complete more), same,
        rest_of_complete complete, List.drop_append_of_le_length inside, ih]
  | case2 bytes incomplete => rw [rest_of_not_complete incomplete]

/-- The message that new bytes complete ends among them. -/
theorem lt_of_complete_append (headerOnly : HeaderOnly headerLength length)
    {bytes more : List α} (incomplete : ¬ Complete length bytes)
    (complete : Complete length (bytes ++ more)) (whole : headerLength ≤ bytes.length) :
    (bytes.length : Int) < length (bytes ++ more) := by
  have same := headerOnly.length_append whole more
  by_contra early
  exact incomplete ⟨same ▸ complete.1, by rw [← same]; omega⟩

end HeaderOnly

end FrameCode.StreamFraming
