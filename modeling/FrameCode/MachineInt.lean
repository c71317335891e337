import Mathlib.Tactic.Ring

/-!
# Fixed-width counters

Unsigned 32-bit counters are natural numbers below `2 ^ 32`, and the value of a
signed 32-bit expression is an integer between `-2 ^ 31` and `2 ^ 31 - 1`.  The
operations wrap the way the hardware does; the lemmas say when they agree with
ordinary arithmetic.
-/

namespace FrameCode.MachineInt

/-- Increment of an unsigned 32-bit counter. -/
def succ32 (n : Nat) : Nat := (n + 1) % 4294967296

/-- Decrement of an unsigned 32-bit counter; zero wraps to the largest value. -/
def pred32 (n : Nat) : Nat := (n + 4294967295) % 4294967296

/-- The value of a 32-bit signed integer with the same low bits. -/
def toInt32 (n : Int) : Int := Int.bmod n 4294967296

/-- The value of a 32-bit unsigned integer with the same low bits. -/
def toUInt32 (n : Nat) : Nat := n % 4294967296

theorem succ32_eq {n : Nat} (bound : n + 1 < 4294967296) : succ32 n = n + 1 :=
  Nat.mod_eq_of_lt bound

theorem pred32_eq {n : Nat} (positive : 0 < n) (bound : n < 4294967296) :
    pred32 n = n - 1 := by
  unfold pred32
  omega

theorem toInt32_eq {n : Int} (lower : -2147483648 ≤ n) (upper : n < 2147483648) :
    toInt32 n = n := by
  unfold toInt32
  rw [Int.bmod_def]
  split <;> omega

theorem toUInt32_eq {n : Nat} (bound : n < 4294967296) : toUInt32 n = n :=
  Nat.mod_eq_of_lt bound

end FrameCode.MachineInt
