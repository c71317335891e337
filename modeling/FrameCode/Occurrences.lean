import Mathlib.Data.List.Infix

/-!
# Occurrences of a pattern in a list

The first occurrence of a pattern, and the occurrences that are met from the left when none of them
may overlap the one before.
-/

namespace FrameCode.Occurrences

variable {α : Type} [DecidableEq α]

/-- The offset of the first occurrence. -/
def find (pattern : List α) : List α → Option Nat
  | [] => if pattern = [] then some 0 else none
  | symbol :: rest =>
      if pattern <+: symbol :: rest then some 0 else (find pattern rest).map (· + 1)

/-- The offsets of the occurrences in the part of a list that begins at `offset`, with a bound on
their number. -/
def occurrencesFrom (pattern : List α) : Nat → Nat → List α → List Nat
  | 0, _, _ => []
  | fuel + 1, offset, source =>
      match find pattern source with
      | none => []
      | some place =>
          (offset + place) :: occurrencesFrom pattern fuel (offset + place + pattern.length)
            (source.drop (place + pattern.length))

/-- The offsets of the leftmost occurrences that do not overlap.  A pattern that is not empty has
at most one of them for each symbol of the list. -/
def occurrences (pattern source : List α) : List Nat :=
  occurrencesFrom pattern source.length 0 source

example : occurrences [1, 1] [1, 1, 1, 1, 1] = [0, 2] := by decide

section Find

variable {pattern source : List α} {place : Nat}

theorem find_eq_some_iff :
    find pattern source = some place ↔
      pattern <+: source.drop place ∧ ∀ earlier < place, ¬ pattern <+: source.drop earlier := by
  induction source generalizing place with
  | nil =>
      rw [find, List.drop_nil, List.prefix_nil]
      by_cases empty : pattern = []
      · cases place with
        | zero => simp [empty]
        | succ place =>
            simp only [empty, if_true, Option.some.injEq, true_and]
            exact iff_of_false (Nat.succ_ne_zero place).symm fun minimal =>
              minimal 0 (Nat.succ_pos place) List.nil_prefix
      · simp [empty]
  | cons symbol rest ih =>
      rw [find]
      by_cases here : pattern <+: symbol :: rest
      · rw [if_pos here]
        cases place with
        | zero => simp [here]
        | succ place =>
            refine iff_of_false (fun same => ?_) fun both => both.2 0 (Nat.succ_pos place) here
            cases same
      · rw [if_neg here]
        cases place with
        | zero => simp [here]
        | succ place =>
            rw [Option.map_eq_some_iff]
            simp only [Nat.add_right_cancel_iff, exists_eq_right, List.drop_succ_cons, ih]
            apply and_congr_right
            intro begins
            constructor
            · intro minimal earlier less
              cases earlier with
              | zero => exact here
              | succ earlier => exact minimal earlier (Nat.lt_of_succ_lt_succ less)
            · exact fun minimal earlier less => minimal (earlier + 1) (Nat.succ_lt_succ less)

theorem find_eq_none_iff :
    find pattern source = none ↔ ∀ place, ¬ pattern <+: source.drop place := by
  induction source with
  | nil => simp [find]
  | cons symbol rest ih =>
      rw [find]
      by_cases here : pattern <+: symbol :: rest
      · rw [if_pos here]
        exact iff_of_false nofun fun nowhere => nowhere 0 here
      · rw [if_neg here, Option.map_eq_none_iff, ih]
        refine ⟨fun nowhere place => ?_, fun nowhere place => nowhere (place + 1)⟩
        cases place with
        | zero => exact here
        | succ place => exact nowhere place

theorem find_singleton_eq_none_iff {symbol : α} :
    find [symbol] source = none ↔ symbol ∉ source := by
  induction source with
  | nil => simp [find]
  | cons first rest ih =>
      rw [find, List.mem_cons, not_or, ← ih]
      by_cases same : symbol = first
      · simp [same]
      · simp [same, List.cons_prefix_cons]

/-- An occurrence lies within the list. -/
theorem length_le_of_find (found : find pattern source = some place) (nonempty : pattern ≠ []) :
    place + pattern.length ≤ source.length := by
  have begins := (find_eq_some_iff.mp found).1.length_le
  have positive := List.length_pos_iff.mpr nonempty
  rw [List.length_drop] at begins
  omega

/-- No occurrence is in front of the first one. -/
theorem le_of_find (found : find pattern source = some place) {other : Nat}
    (occurs : pattern <+: source.drop other) : place ≤ other := by
  by_contra earlier
  exact (find_eq_some_iff.mp found).2 other (Nat.lt_of_not_le earlier) occurs

end Find

end FrameCode.Occurrences
