import Mathlib.Logic.Function.Basic

/-!
# Feistel networks

A block of two halves is put through rounds.  A round mixes the left half with the right one under
its key, and exchanges the halves.  Mixing twice with the same right half under the same key has to
give the left half back; nothing is asked of how the right half enters.
-/

namespace FrameCode.FeistelNetwork

variable {Half Key : Type*} (mix : Key → Half → Half → Half)

def round (block : Half × Half) (key : Key) : Half × Half := (block.2, mix key block.2 block.1)

/-- The rounds for a list of keys, and the exchange that undoes the last round's. -/
def crypt (keys : List Key) (block : Half × Half) : Half × Half :=
  (keys.foldl (round mix) block).swap

section Inverse

variable {mix} (involutive : ∀ key right, Function.Involutive (mix key right))

include involutive

theorem round_swap_round (block : Half × Half) (key : Key) :
    round mix (round mix block key).swap key = block.swap := by
  rw [round, Prod.fst_swap, Prod.snd_swap]
  exact congrArg (block.2, ·) (involutive key block.2 block.1)

/-- The rounds undo themselves when their keys come in the other order. -/
theorem foldl_round_reverse (keys : List Key) (block : Half × Half) :
    keys.reverse.foldl (round mix) (keys.foldl (round mix) block).swap = block.swap := by
  induction keys generalizing block with
  | nil => rfl
  | cons key rest ih =>
      rw [List.foldl_cons, List.reverse_cons, List.foldl_append, ih (round mix block key)]
      exact round_swap_round involutive block key

theorem crypt_reverse_crypt (keys : List Key) (block : Half × Half) :
    crypt mix keys.reverse (crypt mix keys block) = block := by
  unfold crypt
  rw [foldl_round_reverse involutive, Prod.swap_swap]

theorem crypt_crypt_reverse (keys : List Key) (block : Half × Half) :
    crypt mix keys (crypt mix keys.reverse block) = block := by
  have undone := crypt_reverse_crypt involutive keys.reverse block
  rwa [List.reverse_reverse] at undone

end Inverse

section Symmetry

variable {mix} {onKey : Key → Key} {onHalf : Half → Half}
  (commutes : ∀ key right left,
    mix (onKey key) (onHalf right) (onHalf left) = onHalf (mix key right left))

include commutes

theorem foldl_round_map (keys : List Key) (block : Half × Half) :
    (keys.map onKey).foldl (round mix) (Prod.map onHalf onHalf block) =
      Prod.map onHalf onHalf (keys.foldl (round mix) block) := by
  induction keys generalizing block with
  | nil => rfl
  | cons key rest ih =>
      rw [List.map_cons, List.foldl_cons, List.foldl_cons, ← ih (round mix block key)]
      apply congrArg (List.foldl (round mix) · (rest.map onKey))
      exact congrArg (onHalf block.2, ·) (commutes key block.2 block.1)

/-- A change of keys and halves that mixing respects is respected by the network. -/
theorem crypt_map (keys : List Key) (block : Half × Half) :
    crypt mix (keys.map onKey) (Prod.map onHalf onHalf block) =
      Prod.map onHalf onHalf (crypt mix keys block) := by
  unfold crypt
  rw [foldl_round_map commutes]
  rfl

end Symmetry

end FrameCode.FeistelNetwork
