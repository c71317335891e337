import Mathlib.Data.Nat.Basic
import Mathlib.Tactic.SplitIfs

/-!
# Memory areas that hold whole objects

An area of memory is described by the objects stored in it: it maps the offset
at which an object starts to the object.  Writing an object destroys every
object that shares a byte with it, and cutting the area drops every object that
does not fit into the remaining part.  So an object can be read back only if
nothing has been written over it since.
-/

namespace FrameCode.RegionMemory

/-- The objects of an area by their first byte. -/
abbrev Area (ρ : Type) := Nat → Option ρ

namespace Area

variable {ρ : Type} (size : ρ → Nat)

/-- The byte ranges of the two objects have no byte in common. -/
def Apart (first : Nat) (firstSize : Nat) (second : Nat) (secondSize : Nat) : Prop :=
  first + firstSize ≤ second ∨ second + secondSize ≤ first

instance (first firstSize second secondSize : Nat) :
    Decidable (Apart first firstSize second secondSize) :=
  inferInstanceAs (Decidable (_ ∨ _))

def store (area : Area ρ) (offset : Nat) (object : ρ) : Area ρ := fun o =>
  if o = offset then some object
  else (area o).filter fun other => decide (Apart o (size other) offset (size object))

/-- Read back an object of the given length. -/
def load (area : Area ρ) (offset length : Nat) : Option ρ :=
  (area offset).filter fun object => decide (size object = length)

/-- Keep the first `length` bytes. -/
def clip (area : Area ρ) (length : Nat) : Area ρ := fun o =>
  (area o).filter fun object => decide (o + size object ≤ length)

/-- No two objects of the area share a byte. -/
def Separated (area : Area ρ) : Prop :=
  ∀ o o' object object', o ≠ o' → area o = some object → area o' = some object' →
    Apart o (size object) o' (size object')

variable {size}

theorem load_eq_some {area : Area ρ} {offset length : Nat} {object : ρ} :
    area.load size offset length = some object ↔
      area offset = some object ∧ size object = length := by
  simp [load, Option.filter_eq_some_iff]

/-- An object inside the kept part survives. -/
theorem load_clip {area : Area ρ} {offset length limit : Nat} {object : ρ}
    (found : area.load size offset length = some object) (inside : offset + length ≤ limit) :
    (area.clip size limit).load size offset length = some object := by
  obtain ⟨here, rfl⟩ := load_eq_some.mp found
  simp [load, clip, here, inside]

theorem separated_empty : Separated size (fun _ => none : Area ρ) := by
  intro o o' object object' _ found
  cases found

theorem Separated.store {area : Area ρ} (separated : Separated size area) (offset : Nat)
    (object : ρ) : Separated size (area.store size offset object) := by
  intro o o' first second different foundFirst foundSecond
  unfold Area.store at foundFirst foundSecond
  by_cases here : o = offset
  · subst here
    rw [if_pos rfl, Option.some.injEq] at foundFirst
    rw [if_neg (Ne.symm different), Option.filter_eq_some_iff] at foundSecond
    subst foundFirst
    exact (of_decide_eq_true foundSecond.2).symm
  · rw [if_neg here, Option.filter_eq_some_iff] at foundFirst
    by_cases there : o' = offset
    · subst there
      rw [if_pos rfl, Option.some.injEq] at foundSecond
      subst foundSecond
      exact of_decide_eq_true foundFirst.2
    · rw [if_neg there, Option.filter_eq_some_iff] at foundSecond
      exact separated o o' first second different foundFirst.1 foundSecond.1

theorem Separated.clip {area : Area ρ} (separated : Separated size area) (limit : Nat) :
    Separated size (area.clip size limit) := by
  intro o o' first second different foundFirst foundSecond
  exact separated o o' first second different (Option.filter_eq_some_iff.mp foundFirst).1
    (Option.filter_eq_some_iff.mp foundSecond).1

/-- Writing an object where it already stands changes nothing. -/
theorem store_eq_self {area : Area ρ} (separated : Separated size area) {offset : Nat}
    {object : ρ} (found : area offset = some object) :
    area.store size offset object = area := by
  funext o
  unfold Area.store
  by_cases here : o = offset
  · rw [if_pos here, here, found]
  · rw [if_neg here]
    cases there : area o with
    | none => rfl
    | some other =>
        simp [separated o offset other object here there found]

theorem clip_eq_self {area : Area ρ} {limit : Nat}
    (inside : ∀ o object, area o = some object → o + size object ≤ limit) :
    area.clip size limit = area := by
  funext o
  unfold Area.clip
  cases here : area o with
  | none => rfl
  | some object => simp [inside o object here]

end Area

end FrameCode.RegionMemory
