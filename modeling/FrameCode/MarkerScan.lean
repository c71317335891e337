import Mathlib.Data.List.Induction
import Mathlib.Data.List.Infix
import Mathlib.Tactic.Common

/-!
# Looking for a marker

A marker is looked for one symbol at a time, with the number of its symbols that have been matched
as the only state.  A mismatch falls back to the first symbol.  This finds the marker where it
begins, provided that its first symbol does not occur in it again.
-/

namespace FrameCode.MarkerScan

variable {α : Type*} {marker text : List α} {matched : Nat} {symbol : α}

/-- The text ends with the symbols that have been matched. -/
def Matches (marker : List α) (matched : Nat) (text : List α) : Prop :=
  matched ≤ marker.length ∧ marker.take matched <:+ text

theorem matches_zero (marker text : List α) : Matches marker 0 text :=
  ⟨Nat.zero_le _, by rw [List.take_zero]; exact List.nil_suffix⟩

theorem matches_symbol (text : List α) (first : marker[0]? = some symbol) :
    Matches marker 1 (text ++ [symbol]) := by
  match marker, first with
  | [], first => cases first
  | head :: tail, first =>
      cases first
      exact ⟨Nat.le_add_left _ _, text, rfl⟩

section Scan

variable [DecidableEq α]

/-- The number of matched symbols behind another one. -/
def advance (marker : List α) (matched : Nat) (symbol : α) : Nat :=
  if marker[matched]? = some symbol then matched + 1
  else if marker[0]? = some symbol then 1
  else 0

theorem Matches.advance (kept : Matches marker matched text) (symbol : α) :
    Matches marker (advance marker matched symbol) (text ++ [symbol]) := by
  unfold MarkerScan.advance
  split
  · rename_i next
    obtain ⟨inside, same⟩ := List.getElem?_eq_some_iff.mp next
    obtain ⟨before, whole⟩ := kept.2
    refine ⟨inside, before, ?_⟩
    rw [List.take_succ_eq_append_getElem inside, same, ← List.append_assoc, whole]
  · split
    · rename_i first
      exact matches_symbol text first
    · exact matches_zero marker _

theorem advance_le (marker : List α) (matched : Nat) (symbol : α) :
    advance marker matched symbol ≤ marker.length := by
  unfold advance
  split
  · rename_i next
    exact (List.getElem?_eq_some_iff.mp next).1
  · split
    · rename_i first
      exact (List.getElem?_eq_some_iff.mp first).1
    · exact Nat.zero_le _

/-- The state behind a text. -/
def scan (marker : List α) (matched : Nat) (text : List α) : Nat :=
  text.foldl (advance marker) matched

theorem matches_scan (marker text : List α) : Matches marker (scan marker 0 text) text := by
  induction text using List.reverseRecOn with
  | nil => exact matches_zero marker []
  | append_singleton front symbol ih =>
      rw [scan, List.foldl_append]
      exact ih.advance symbol

/-- A text without the marker never matches all of it. -/
theorem scan_lt (without : ¬ marker <:+: text) {front : List α} (start : front <+: text) :
    scan marker 0 front < marker.length := by
  have kept := matches_scan marker front
  apply Nat.lt_of_le_of_ne kept.1
  intro all
  have found := kept.2
  rw [all, List.take_length] at found
  exact without (found.isInfix.trans start.isInfix)

/-- Whatever has been matched before, the symbols of the marker are matched from the first one
on. -/
theorem scan_take (once : ∀ place, marker[place]? = marker[0]? → place < marker.length → place = 0)
    (before : matched < marker.length) {count : Nat} (more : 0 < count)
    (inside : count ≤ marker.length) : scan marker matched (marker.take count) = count := by
  induction count with
  | zero => exact absurd more (Nat.lt_irrefl 0)
  | succ count ih =>
      have present : count < marker.length := inside
      rw [List.take_succ_eq_append_getElem present, scan, List.foldl_append]
      by_cases first : count = 0
      · subst first
        have head := List.getElem?_eq_getElem present
        rw [List.take_zero]
        change advance marker matched marker[0] = 1
        unfold advance
        split
        · rename_i next
          rw [once matched (next.trans head.symm) before]
        · rfl
      · have state := ih (Nat.pos_of_ne_zero first) (by omega)
        rw [scan] at state
        rw [state]
        exact if_pos (List.getElem?_eq_getElem present)

end Scan

end FrameCode.MarkerScan
