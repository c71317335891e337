import Mathlib.Data.List.Basic

/-!
# Runs of a labelled step function

A system is given by a partial step function: `step s a` is the state after the
action `a`, or `none` where the action is not possible in `s`.  A run is a list of
actions, and a guard restricts the actions that a run may take.
-/

namespace FrameCode

variable {σ α : Type} {step : σ → α → Option σ} {guard : σ → α → Prop} {Inv : σ → Prop}
variable {s t : σ} {a : α} {actions : List α}

/-- The state after a list of actions. -/
def run (step : σ → α → Option σ) : σ → List α → Option σ
  | s, [] => some s
  | s, a :: actions => (step s a).bind fun next => run step next actions

/-- Every action of the run meets the guard in the state where it is taken. -/
def Meets (step : σ → α → Option σ) (guard : σ → α → Prop) : σ → List α → Prop
  | _, [] => True
  | s, a :: actions => ∀ next ∈ step s a, guard s a ∧ Meets step guard next actions

/-- Every state of the run, the first and the last included, has the property. -/
def Throughout (step : σ → α → Option σ) (holds : σ → Prop) : σ → List α → Prop
  | s, [] => holds s
  | s, a :: actions => holds s ∧ ∀ next ∈ step s a, Throughout step holds next actions

instance Meets.decidable (step : σ → α → Option σ) (guard : σ → α → Prop)
    [∀ s a, Decidable (guard s a)] : ∀ s actions, Decidable (Meets step guard s actions)
  | _, [] => isTrue trivial
  | s, a :: actions =>
      have : ∀ next, Decidable (Meets step guard next actions) := fun next =>
        Meets.decidable step guard next actions
      inferInstanceAs (Decidable (∀ next ∈ step s a, guard s a ∧ Meets step guard next actions))

/-- The inductive step of every invariant: an action that meets the guard keeps it. -/
def Preserved (step : σ → α → Option σ) (guard : σ → α → Prop) (Inv : σ → Prop) : Prop :=
  ∀ ⦃s a t⦄, Inv s → guard s a → step s a = some t → Inv t

theorem run_cons :
    run step s (a :: actions) = some t ↔
      ∃ next, step s a = some next ∧ run step next actions = some t := by
  simp [run, Option.bind_eq_some_iff]

theorem run_append (first second : List α) :
    run step s (first ++ second) = (run step s first).bind fun next => run step next second := by
  induction first generalizing s with
  | nil => rfl
  | cons a first ih =>
      simp only [List.cons_append, run, Option.bind_assoc]
      exact Option.bind_congr fun next _ => ih

/-- Without a guard every run is admitted. -/
theorem meets_true (actions : List α) : Meets step (fun _ _ => True) s actions := by
  induction actions generalizing s with
  | nil => trivial
  | cons a actions ih => exact fun next _ => ⟨trivial, ih⟩

theorem Throughout.last {holds : σ → Prop} (throughout : Throughout step holds s actions)
    (reached : run step s actions = some t) : holds t := by
  induction actions generalizing s with
  | nil =>
      cases reached
      exact throughout
  | cons a actions ih =>
      obtain ⟨next, taken, rest⟩ := run_cons.mp reached
      exact ih (throughout.2 next taken) rest

theorem Meets.mono {weaker : σ → α → Prop} (implies : ∀ s a, guard s a → weaker s a)
    (meets : Meets step guard s actions) : Meets step weaker s actions := by
  induction actions generalizing s with
  | nil => trivial
  | cons a actions ih =>
      intro next taken
      obtain ⟨met, after⟩ := meets next taken
      exact ⟨implies s a met, ih after⟩

/-- What the guarded steps preserve holds at the end of every guarded run. -/
theorem Preserved.run (preserved : Preserved step guard Inv) (holds : Inv s)
    (meets : Meets step guard s actions) (reached : FrameCode.run step s actions = some t) :
    Inv t := by
  induction actions generalizing s with
  | nil =>
      cases reached
      exact holds
  | cons a actions ih =>
      obtain ⟨next, taken, rest⟩ := run_cons.mp reached
      obtain ⟨met, after⟩ := meets next taken
      exact ih (preserved holds met taken) after rest

/-- A property that follows from the invariant, and that every step outside the guard
breaks, holds throughout the guarded runs and no others. -/
theorem Preserved.throughout_iff_meets {holds : σ → Prop} (preserved : Preserved step guard Inv)
    (sound : ∀ s, Inv s → holds s)
    (exact : ∀ s a t, Inv s → step s a = some t → holds t → guard s a) (inv : Inv s)
    (actions : List α) : Throughout step holds s actions ↔ Meets step guard s actions := by
  induction actions generalizing s with
  | nil => exact ⟨fun _ => trivial, fun _ => sound s inv⟩
  | cons a actions ih =>
      constructor
      · rintro ⟨-, after⟩ next taken
        have here : holds next := by
          cases actions with
          | nil => exact after next taken
          | cons b rest => exact (after next taken).1
        have met := exact s a next inv taken here
        exact ⟨met, (ih (preserved inv met taken)).mp (after next taken)⟩
      · intro meets
        refine ⟨sound s inv, fun next taken => ?_⟩
        obtain ⟨met, after⟩ := meets next taken
        exact (ih (preserved inv met taken)).mpr after

/-- One entry of a list is changed: an entry of the new list is the changed one, or stands
at another place and is as before. -/
theorem of_getElem?_modify {τ : Type} {list : List τ} {change : τ → τ} {i j : Nat} {entry : τ}
    (found : (list.modify i change)[j]? = some entry) :
    (i = j ∧ ∃ old, list[i]? = some old ∧ entry = change old) ∨
      (i ≠ j ∧ list[j]? = some entry) := by
  by_cases here : i = j
  · subst here
    rw [List.getElem?_modify_eq] at found
    obtain ⟨old, before, changed⟩ := Option.map_eq_some_iff.mp found
    exact Or.inl ⟨rfl, old, before, changed.symm⟩
  · rw [List.getElem?_modify_ne _ _ here] at found
    exact Or.inr ⟨here, found⟩

end FrameCode
