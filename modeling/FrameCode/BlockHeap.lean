import Mathlib

/-!
# Heaps of blocks

A heap maps addresses to the contents of the blocks that are allocated.  Programs over it may get
stuck, and `Yields` states at once when they do and what they do otherwise.

References into a heap stand for a forest when every block is used by one reference only.  The
blocks of a forest are its footprint: the forest survives every change that leaves its footprint
alone.  Besides the references a block uses it can keep some that it has no use for any more.
-/

namespace FrameCode.BlockHeap

/-- Addresses are not used again. -/
structure Heap (γ : Type) where
  blocks : Nat → Option γ
  next : Nat

variable {γ : Type}

namespace Heap

def write (h : Heap γ) (address : Nat) (content : γ) : Heap γ :=
  { h with blocks := Function.update h.blocks address (some content) }

/-- The new block is at the address `h.next`. -/
def alloc (h : Heap γ) (content : γ) : Heap γ :=
  { h.write h.next content with next := h.next + 1 }

/-- No block lies behind the next address. -/
def Bounded (h : Heap γ) : Prop := ∀ x, h.next ≤ x → h.blocks x = none

/-- The address has been in use, but its block is gone. -/
def Freed (h : Heap γ) (address : Nat) : Prop := address < h.next ∧ h.blocks address = none

section Basic

variable (h : Heap γ) (address : Nat) (content : γ) {x : Nat}

@[simp] theorem write_self : (h.write address content).blocks address = some content := by
  simp [write]

@[simp] theorem write_next : (h.write address content).next = h.next := rfl

theorem write_other (other : x ≠ address) :
    (h.write address content).blocks x = h.blocks x := by
  simp [write, other]

@[simp] theorem alloc_self : (h.alloc content).blocks h.next = some content :=
  h.write_self h.next content

theorem alloc_other (other : x ≠ h.next) : (h.alloc content).blocks x = h.blocks x :=
  h.write_other h.next content other

@[simp] theorem alloc_next : (h.alloc content).next = h.next + 1 := rfl

end Basic

theorem Bounded.lt {h : Heap γ} (bounded : h.Bounded) {x : Nat} {content : γ}
    (found : h.blocks x = some content) : x < h.next := by
  by_contra behind
  rw [bounded x (Nat.not_lt.mp behind)] at found
  cases found

end Heap

/-! ## Programs -/

abbrev HeapM (γ : Type) := StateT (Heap γ) Option

/-- A step without a defined meaning. -/
def stuck {α : Type} : HeapM γ α := fun _ => none

def read (address : Nat) : HeapM γ γ := fun h => (h.blocks address).map fun content => (content, h)

def alloc (content : γ) : HeapM γ Nat := fun h => some (h.next, h.alloc content)

def write (address : Nat) (content : γ) : HeapM γ Unit := fun h => some ((), h.write address content)

/-- A run gets stuck exactly when `sound` fails, and reaches `post` otherwise. -/
def Yields {α : Type} (result : Option (α × Heap γ)) (sound : Prop) (post : α → Heap γ → Prop) :
    Prop :=
  match result with
  | none => ¬ sound
  | some (value, h) => sound ∧ post value h

section Programs

variable {α β : Type} {h : Heap γ} {x : HeapM γ α} {sound : Prop} {post : α → Heap γ → Prop}

theorem Yields.bind (first : Yields (x h) sound post) {f : α → HeapM γ β} {sound' : Prop}
    {post' : β → Heap γ → Prop}
    (rest : ∀ value h', post value h' → sound → Yields (f value h') sound' post') :
    Yields ((x >>= f) h) (sound ∧ sound') post' := by
  change Yields ((x h).bind fun result => f result.1 result.2) _ _
  cases ran : x h with
  | none =>
      rw [ran] at first
      exact fun both => first both.1
  | some result =>
      obtain ⟨value, h'⟩ := result
      rw [ran] at first
      have met := rest value h' first.2 first.1
      rw [Option.bind_some]
      cases later : f value h' with
      | none =>
          rw [later] at met
          exact fun both => met both.2
      | some result =>
          rw [later] at met
          exact ⟨⟨first.1, met.1⟩, met.2⟩

theorem Yields.pure {value : α} (holds : post value h) :
    Yields ((pure value : HeapM γ α) h) True post := ⟨trivial, holds⟩

theorem Yields.stuck (unsound : ¬ sound) : Yields ((stuck : HeapM γ α) h) sound post := unsound

theorem Yields.imp {result : Option (α × Heap γ)} (met : Yields result sound post) {sound' : Prop}
    (same : sound' ↔ sound) {post' : α → Heap γ → Prop}
    (weaker : ∀ value h', sound → post value h' → post' value h') : Yields result sound' post' := by
  unfold Yields at met ⊢
  rw [same]
  cases result with
  | none => exact met
  | some result => exact ⟨met.1, weaker _ _ met.1 met.2⟩

theorem bind_none (isStuck : x h = none) (f : α → HeapM γ β) : (x >>= f) h = none := by
  change (x h).bind _ = none
  rw [isStuck]
  rfl

theorem bind_read {address : Nat} {content : γ} (found : h.blocks address = some content)
    (f : γ → HeapM γ β) : (read address >>= f) h = f content h := by
  change ((h.blocks address).map fun content => (content, h)).bind _ = _
  rw [found]
  rfl

theorem bind_alloc (content : γ) (f : Nat → HeapM γ β) :
    (alloc content >>= f) h = f h.next (h.alloc content) := rfl

end Programs

/-! ## Changes -/

/-- From one heap to a later one only the touched blocks change, and new ones are added. -/
structure Changes (h h' : Heap γ) (touched : Set Nat) : Prop where
  bounded : h'.Bounded
  next_le : h.next ≤ h'.next
  allocated : ∀ x ∈ touched, ∃ content, h.blocks x = some content
  same : ∀ x < h.next, x ∉ touched → h'.blocks x = h.blocks x

/-- The blocks of `parts` are touched ones or new. -/
def Stems (h : Heap γ) (touched parts : Set Nat) : Prop := ∀ x ∈ parts, x ∈ touched ∨ h.next ≤ x

theorem Stems.trans {h h₁ : Heap γ} {touched parts later : Set Nat} (first : Stems h touched parts)
    (second : Stems h₁ parts later) (next_le : h.next ≤ h₁.next) : Stems h touched later :=
  fun x inside => (second x inside).elim (first x) fun new => Or.inr (next_le.trans new)

/-- An allocated block that has not been touched is none of the parts. -/
theorem Stems.notMem {h : Heap γ} {touched parts : Set Nat} (stems : Stems h touched parts)
    (bounded : h.Bounded) {address : Nat} {content : γ} (found : h.blocks address = some content)
    (outside : address ∉ touched) : address ∉ parts := by
  intro member
  rcases stems address member with inside | new
  · exact outside inside
  · exact absurd (bounded.lt found) (Nat.not_lt.mpr new)

theorem Stems.insert {h : Heap γ} {touched parts : Set Nat} (stems : Stems h touched parts)
    (address : Nat) : Stems h (Insert.insert address touched) (Insert.insert address parts) := by
  rintro x (rfl | inside)
  · exact Or.inl (Set.mem_insert _ _)
  · exact (stems x inside).imp_left (Set.mem_insert_of_mem _)

namespace Changes

variable {h h₁ h₂ : Heap γ} {touched more : Set Nat}

theorem refl (bounded : h.Bounded) : Changes h h ∅ :=
  ⟨bounded, le_rfl, by simp, fun _ _ _ => rfl⟩

theorem alloc (bounded : h.Bounded) (content : γ) : Changes h (h.alloc content) ∅ := by
  refine ⟨fun x behind => ?_, Nat.le_succ _, by simp, fun x less _ => ?_⟩
  · rw [h.alloc_next] at behind
    rw [h.alloc_other content (by omega)]
    exact bounded x (by omega)
  · exact h.alloc_other content (by omega)

theorem write (bounded : h.Bounded) {address : Nat} {old : γ}
    (found : h.blocks address = some old) (content : γ) :
    Changes h (h.write address content) {address} := by
  have less := bounded.lt found
  refine ⟨fun x behind => ?_, le_rfl, ?_, fun x _ outside => h.write_other address content outside⟩
  · rw [h.write_other address content (by rintro rfl; exact absurd less (Nat.not_lt.mpr behind))]
    exact bounded x behind
  · rintro x rfl
    exact ⟨old, found⟩

theorem mono (changes : Changes h h₁ touched) (sub : touched ⊆ more)
    (allocated : ∀ x ∈ more, ∃ content, h.blocks x = some content) : Changes h h₁ more :=
  ⟨changes.bounded, changes.next_le, allocated, fun x less outside =>
    changes.same x less fun inside => outside (sub inside)⟩

/-- A second change touches what the first one may touch, and new blocks. -/
theorem trans (first : Changes h h₁ touched) (second : Changes h₁ h₂ more)
    (stems : Stems h touched more) : Changes h h₂ touched := by
  refine ⟨second.bounded, first.next_le.trans second.next_le, first.allocated, ?_⟩
  intro x less outside
  have away : x ∉ more := fun inside =>
    (stems x inside).elim outside fun new => absurd less (Nat.not_lt.mpr new)
  rw [second.same x (less.trans_le first.next_le) away, first.same x less outside]

/-- A block that has not been touched is written in addition. -/
theorem and_write (changes : Changes h h₁ touched) (bounded : h.Bounded) {address : Nat} {old : γ}
    (found : h.blocks address = some old) (outside : address ∉ touched) (content : γ) :
    Changes h (h₁.write address content) (insert address touched) := by
  have same : h₁.blocks address = some old := by
    rw [changes.same address (bounded.lt found) outside, found]
  have allocated : ∀ x ∈ insert address touched, ∃ content, h.blocks x = some content := by
    rintro x (rfl | inside)
    · exact ⟨old, found⟩
    · exact changes.allocated x inside
  refine (changes.mono (Set.subset_insert _ _) allocated).trans
    (write changes.bounded same content) ?_
  rintro x rfl
  exact Or.inl (Set.mem_insert _ _)

theorem freed (changes : Changes h h₁ touched) {x : Nat} (freed : h.Freed x) : h₁.Freed x := by
  obtain ⟨less, gone⟩ := freed
  refine ⟨less.trans_le changes.next_le, ?_⟩
  rw [changes.same x less, gone]
  intro inside
  obtain ⟨content, found⟩ := changes.allocated x inside
  rw [gone] at found
  cases found

/-- What stems from touched blocks is apart from what is apart from them. -/
theorem disjoint_of_stems (bounded : h.Bounded) {parts others : Set Nat}
    (stems : Stems h touched parts) (apart : Disjoint touched others)
    (allocated : ∀ x ∈ others, ∃ content, h.blocks x = some content) : Disjoint parts others := by
  rw [Set.disjoint_left] at apart ⊢
  intro x inParts inOthers
  obtain ⟨content, found⟩ := allocated x inOthers
  exact stems.notMem bounded found (fun inside => apart inside inOthers) inParts

end Changes

/-! ## Forests -/

/-- Trees with a label at each node, given by their first tree: the trees that its root uses, the
ones that it only keeps, and the trees behind it. -/
inductive Forest (ι : Type)
  | nil
  | node (label : ι) (live kept rest : Forest ι)

namespace Forest

variable {ι : Type}

def append : Forest ι → Forest ι → Forest ι
  | .nil, trees => trees
  | .node label live kept rest, trees => .node label live kept (rest.append trees)

/-- Every node in use has the property. -/
def AllLive (p : ι → Prop) : Forest ι → Prop
  | .nil => True
  | .node label live _ rest => p label ∧ live.AllLive p ∧ rest.AllLive p

end Forest

variable {σ ι : Type}

/-- References of given sorts stand for a forest.  `node` says which blocks a reference of a sort
may lead to, with the label and the references of such a block. -/
inductive Stands (node : σ → γ → ι → List (σ × Nat) → List (σ × Nat) → Prop) (h : Heap γ) :
    List (σ × Nat) → Set Nat → Forest ι → Prop
  | nil : Stands node h [] ∅ .nil
  | cons {sort : σ} {address : Nat} {content : γ} {label : ι} {live kept rest : List (σ × Nat)}
      {used unused others : Set Nat} {liveTrees keptTrees trees : Forest ι}
      (found : h.blocks address = some content) (isNode : node sort content label live kept)
      (lives : Stands node h live used liveTrees) (keeps : Stands node h kept unused keptTrees)
      (outside : address ∉ used ∪ unused) (apart : Disjoint used unused)
      (rests : Stands node h rest others trees)
      (away : Disjoint (insert address (used ∪ unused)) others) :
      Stands node h ((sort, address) :: rest) (insert address (used ∪ unused) ∪ others)
        (.node label liveTrees keptTrees trees)

namespace Stands

variable {node : σ → γ → ι → List (σ × Nat) → List (σ × Nat) → Prop} {h h' : Heap γ}
variable {references : List (σ × Nat)} {footprint touched : Set Nat} {trees : Forest ι}

theorem allocated (stands : Stands node h references footprint trees) :
    ∀ x ∈ footprint, ∃ content, h.blocks x = some content := by
  induction stands with
  | nil => simp
  | cons found _ _ _ _ _ _ _ livesIH keepsIH restsIH =>
      rintro x ((rfl | used | unused) | other)
      · exact ⟨_, found⟩
      · exact livesIH x used
      · exact keepsIH x unused
      · exact restsIH x other

theorem congr (stands : Stands node h references footprint trees)
    (same : ∀ x ∈ footprint, h'.blocks x = h.blocks x) :
    Stands node h' references footprint trees := by
  induction stands with
  | nil => exact .nil
  | cons found isNode _ _ outside apart _ away livesIH keepsIH restsIH =>
      refine .cons ((same _ ?_).trans found) isNode (livesIH fun x inside => same x ?_)
        (keepsIH fun x inside => same x ?_) outside apart (restsIH fun x inside => same x ?_) away
      all_goals simp [*]

theorem write (stands : Stands node h references footprint trees) {address : Nat}
    (outside : address ∉ footprint) (content : γ) :
    Stands node (h.write address content) references footprint trees := by
  apply stands.congr
  intro x inside
  exact h.write_other address content fun same => outside (same ▸ inside)

/-- A change elsewhere. -/
theorem frame (stands : Stands node h references footprint trees) (bounded : h.Bounded)
    (changes : Changes h h' touched) (apart : Disjoint footprint touched) :
    Stands node h' references footprint trees := by
  apply stands.congr
  intro x inside
  obtain ⟨content, found⟩ := stands.allocated x inside
  exact changes.same x (bounded.lt found) (Set.disjoint_left.mp apart inside)

/-- The same, with what the change makes. -/
theorem beside (stands : Stands node h references footprint trees) (bounded : h.Bounded)
    (changes : Changes h h' touched) (apart : Disjoint footprint touched) {parts : Set Nat}
    (stems : Stems h touched parts) :
    Stands node h' references footprint trees ∧ Disjoint footprint parts :=
  ⟨stands.frame bounded changes apart,
    (Changes.disjoint_of_stems bounded stems apart.symm stands.allocated).symm⟩

/-- The trees of the first references and those of the others. -/
theorem split {first second : List (σ × Nat)}
    (stands : Stands node h (first ++ second) footprint trees) :
    ∃ here there these those, Stands node h first here these ∧ Stands node h second there those ∧
      Disjoint here there ∧ footprint = here ∪ there ∧ trees = these.append those := by
  induction first generalizing footprint trees with
  | nil => exact ⟨∅, footprint, .nil, trees, .nil, stands, by simp, by simp, rfl⟩
  | cons reference first ih =>
      cases stands with
      | cons found isNode lives keeps outside apart rests away =>
          obtain ⟨here, there, these, those, holdsHere, holdsThere, between, rfl, rfl⟩ := ih rests
          rw [Set.disjoint_union_right] at away
          refine ⟨_, there, _, those, .cons found isNode lives keeps outside apart holdsHere away.1,
            holdsThere, ?_, by rw [Set.union_assoc], rfl⟩
          rw [Set.disjoint_union_left]
          exact ⟨away.2, between⟩

theorem append {first second : List (σ × Nat)} {here there : Set Nat} {these those : Forest ι}
    (holdsHere : Stands node h first here these) (holdsThere : Stands node h second there those)
    (between : Disjoint here there) :
    Stands node h (first ++ second) (here ∪ there) (these.append those) := by
  induction holdsHere with
  | nil => simpa [Forest.append] using holdsThere
  | cons found isNode lives keeps outside apart _ away _ _ ih =>
      rw [Set.disjoint_union_left] at between
      rw [Set.union_assoc]
      refine .cons found isNode lives keeps outside apart (ih between.2) ?_
      rw [Set.disjoint_union_right]
      exact ⟨away, between.1⟩

end Stands

end FrameCode.BlockHeap
