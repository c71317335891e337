import FrameCode.Beai3Dict

/-!
# Growing arrays

`im_add_element` fills the first free bucket of a vector and doubles a full one first.  The
writes of a call are listed with the number of buckets of the block they go to, those of the
calls inside of `im_resize_vector` included.  They stay inside as long as the doubling makes
room, which it does for every capacity but zero.
-/

namespace FrameCode.ImVector

open OpenAddressing ImTypes MachineInt

variable {ε : Type}

/-! ## The writes of a call -/

/-- A bucket is written at an index of a block with so many buckets. -/
structure BucketWrite where
  index : Nat
  numberOfBuckets : Nat

def BucketWrite.Inside (write : BucketWrite) : Prop := write.index < write.numberOfBuckets

instance (write : BucketWrite) : Decidable write.Inside :=
  inferInstanceAs (Decidable (write.index < write.numberOfBuckets))

/-- The writes of `im_add_element`, over the writes and the result of a resize. -/
def addWrites (resizeWrites : ImVector ε → List BucketWrite)
    (resize : ImVector ε → Option (ImVector ε × Bool)) (vector : ImVector ε)
    (bucket : ImVectorBucket ε) : List BucketWrite :=
  if bucket.value.status = .live then
    if vector.numberOfBuckets ≤ vector.inuse then
      resizeWrites vector ++
        match resize vector with
        | some (resized, true) => [⟨resized.inuse, resized.numberOfBuckets⟩]
        | _ => []
    else [⟨vector.inuse, vector.numberOfBuckets⟩]
  else []

/-- The writes of additions one after the other. -/
def addAllWrites (writes : ImVector ε → ImVectorBucket ε → List BucketWrite)
    (add : ImVector ε → ImVectorBucket ε → Option (ImVector ε × Int)) :
    List (ImVectorBucket ε) → ImVector ε → List BucketWrite
  | [], _ => []
  | bucket :: rest, vector =>
      writes vector bucket ++
        match add vector bucket with
        | some (vector, position) => if position < 0 then [] else addAllWrites writes add rest vector
        | none => []

/-- The writes of `im_resize_vector` into the new block. -/
def resizeWrites : Nat → ImVector ε → List BucketWrite
  | 0, _ => []
  | fuel + 1, vector =>
      if toInt32 (toUInt32 (2 * vector.numberOfBuckets)) < 0 then []
      else
        addAllWrites (addWrites (resizeWrites fuel) (resizeWith fuel)) (addWith (resizeWith fuel))
          vector.buckets
          { imInitializeVector (toInt32 (toUInt32 (2 * vector.numberOfBuckets))) with
            attached := vector.attached.carry }

def imAddElementWrites (vector : ImVector ε) (bucket : ImVectorBucket ε) : List BucketWrite :=
  addWrites (resizeWrites (vector.numberOfBuckets + 1)) (resizeWith (vector.numberOfBuckets + 1))
    vector bucket

/-! ## Adding to a vector with room -/

section Room

variable {resize : ImVector ε → Option (ImVector ε × Bool)} {bucket : ImVectorBucket ε}
variable {attached : Attached (ImObject ε)} {used free : List (ImVectorBucket ε)}

/-- A vector with the given buckets in use and behind them. -/
def filled (attached : Attached (ImObject ε)) (used free : List (ImVectorBucket ε)) :
    ImVector ε :=
  ⟨used.length + free.length, used.length, attached, used ++ free⟩

@[simp] theorem filled_numberOfBuckets :
    (filled attached used free).numberOfBuckets = used.length + free.length := rfl

@[simp] theorem filled_inuse : (filled attached used free).inuse = used.length := rfl

theorem used_filled (attached : Attached (ImObject ε)) (used free : List (ImVectorBucket ε)) :
    (filled attached used free).buckets.take (filled attached used free).inuse = used :=
  List.take_left

/-- Every vector whose buckets are in its block has this form. -/
theorem eq_filled {vector : ImVector ε} (sized : Sized vector) :
    vector = filled vector.attached (vector.buckets.take vector.inuse)
      (vector.buckets.drop vector.inuse) := by
  obtain ⟨size, inuse, attached, buckets⟩ := vector
  obtain ⟨length_buckets, inuse_le⟩ := sized
  have whole : min inuse buckets.length + (buckets.length - inuse) = size := by
    simp only at length_buckets inuse_le
    omega
  have part : min inuse buckets.length = inuse := by
    simp only at length_buckets inuse_le
    omega
  simp only [filled, List.length_take, List.length_drop, List.take_append_drop, whole]
  rw [part]

theorem addWith_of_room {vector : ImVector ε} (live : bucket.value.status = .live)
    (room : vector.inuse < vector.numberOfBuckets) :
    addWith resize vector bucket = some ({ vector with
      inuse := succ32 vector.inuse
      buckets := vector.buckets.set vector.inuse bucket }, (vector.inuse : Int)) := by
  simp [addWith, live, room, Nat.not_le.mpr room]

theorem addWrites_of_room {writes : ImVector ε → List BucketWrite} {vector : ImVector ε}
    (live : bucket.value.status = .live) (room : vector.inuse < vector.numberOfBuckets) :
    addWrites writes resize vector bucket = [⟨vector.inuse, vector.numberOfBuckets⟩] := by
  simp [addWrites, live, Nat.not_le.mpr room]

theorem filled_room (attached : Attached (ImObject ε)) (used free : List (ImVectorBucket ε))
    (old : ImVectorBucket ε) :
    (filled attached used (old :: free)).inuse <
      (filled attached used (old :: free)).numberOfBuckets := by
  simp [filled]

theorem addWith_filled {old : ImVectorBucket ε} (live : bucket.value.status = .live)
    (small : used.length + (free.length + 1) < 4294967296) :
    addWith resize (filled attached used (old :: free)) bucket =
      some (filled attached (used ++ [bucket]) free, (used.length : Int)) := by
  have next : succ32 used.length = used.length + 1 := succ32_eq (by omega)
  have written : (used ++ old :: free).set used.length bucket = used ++ [bucket] ++ free := by
    simp
  have size : used.length + (old :: free).length = (used ++ [bucket]).length + free.length := by
    simp only [List.length_append, List.length_cons, List.length_nil]
    omega
  have count : used.length + 1 = (used ++ [bucket]).length := by simp
  rw [addWith_of_room live (filled_room ..)]
  simp only [filled, next, written, size, count]

/-- Live buckets one after the other take up the free ones. -/
theorem addAll_filled {buckets : List (ImVectorBucket ε)}
    (live : ∀ bucket ∈ buckets, bucket.value.status = .live) (room : buckets.length ≤ free.length)
    (small : used.length + free.length < 4294967296) :
    addAll (addWith resize) buckets (filled attached used free) =
      some (filled attached (used ++ buckets) (free.drop buckets.length), true) := by
  induction buckets generalizing used free with
  | nil => simp [addAll]
  | cons bucket rest ih =>
      cases free with
      | nil => simp at room
      | cons old free =>
          simp only [List.length_cons] at room small
          rw [addAll, addWith_filled (live bucket (by simp)) small]
          simp only
          rw [if_neg (by omega), ih (fun other member => live other (by simp [member])) (by omega)
            (by simp only [List.length_append, List.length_singleton]; omega)]
          simp

theorem addAllWrites_inside {writesOf : ImVector ε → List BucketWrite}
    {buckets : List (ImVectorBucket ε)}
    (live : ∀ bucket ∈ buckets, bucket.value.status = .live) (room : buckets.length ≤ free.length)
    (small : used.length + free.length < 4294967296) :
    ∀ write ∈ addAllWrites (addWrites writesOf resize) (addWith resize) buckets
      (filled attached used free), write.Inside := by
  induction buckets generalizing used free with
  | nil => simp [addAllWrites]
  | cons bucket rest ih =>
      cases free with
      | nil => simp at room
      | cons old free =>
          simp only [List.length_cons] at room small
          have alive := live bucket (by simp)
          intro write member
          rw [addAllWrites, addWith_filled alive small, addWrites_of_room alive (filled_room ..)]
            at member
          simp only at member
          rw [if_neg (by omega), List.mem_append, List.mem_singleton] at member
          rcases member with rfl | later
          · exact filled_room attached used free old
          · exact ih (fun other inside => live other (by simp [inside])) (by omega)
              (by simp only [List.length_append, List.length_singleton]; omega) write later

end Room

/-! ## Doubling a full vector -/

section Doubling

variable {attached : Attached (ImObject ε)} {used : List (ImVectorBucket ε)}

/-- The vector that a resize starts from. -/
theorem imInitializeVector_eq {capacity : Nat} (small : capacity < 4294967296)
    (attached : Attached (ImObject ε)) :
    { (imInitializeVector capacity : ImVector ε) with attached := attached } =
      filled attached [] (List.replicate capacity ⟨0, .empty⟩) := by
  simp [imInitializeVector, filled, toUInt32_eq small]

theorem toInt32_double_small {size : Nat} (small : size < 1073741824) :
    toInt32 (toUInt32 (2 * size)) = ((2 * size : Nat) : Int) := by
  rw [toUInt32_eq (by omega), toInt32_eq (by omega) (by omega)]

/-- Doubling a full vector of live buckets frees as many as are in use. -/
theorem resizeWith_filled (live : ∀ bucket ∈ used, bucket.value.status = .live)
    (small : used.length < 1073741824) (fuel : Nat) :
    resizeWith (fuel + 1) (filled attached used []) =
      some (filled attached.carry used (List.replicate used.length ⟨0, .empty⟩), true) := by
  have size : (filled attached used []).numberOfBuckets = used.length := rfl
  have buckets : (filled attached used []).buckets = used := List.append_nil used
  have rest : (List.replicate (2 * used.length) (⟨0, .empty⟩ : ImVectorBucket ε)).drop used.length =
      List.replicate used.length ⟨0, .empty⟩ := by
    rw [List.drop_replicate]
    congr 1
    omega
  rw [resizeWith, size, toInt32_double_small small, if_neg (by omega), buckets]
  simp only
  rw [imInitializeVector_eq (by omega), addAll_filled live (by simp; omega) (by simp; omega), rest]
  rfl

theorem resizeWrites_inside (live : ∀ bucket ∈ used, bucket.value.status = .live)
    (small : used.length < 1073741824) (fuel : Nat) :
    ∀ write ∈ resizeWrites fuel (filled attached used []), write.Inside := by
  cases fuel with
  | zero => simp [resizeWrites]
  | succ fuel =>
      have size : (filled attached used []).numberOfBuckets = used.length := rfl
      have buckets : (filled attached used []).buckets = used := List.append_nil used
      rw [resizeWrites, size, toInt32_double_small small, if_neg (by omega), buckets,
        imInitializeVector_eq (by omega)]
      exact addAllWrites_inside live (by simp; omega) (by simp; omega)

/-- The doubled size does not fit an `int`, and the allocation fails. -/
theorem resize_refused {vector : ImVector ε} (large : 1073741824 ≤ vector.numberOfBuckets)
    (isInt : vector.numberOfBuckets < 2147483648) (fuel : Nat) :
    resizeWith (fuel + 1) vector = some (vector, false) ∧ resizeWrites (fuel + 1) vector = [] := by
  have negative : toInt32 (toUInt32 (2 * vector.numberOfBuckets)) < 0 := by
    rw [toUInt32_eq (by omega), toInt32, Int.bmod_def]
    split <;> omega
  rw [resizeWith, resizeWrites, if_pos negative, if_pos negative]
  exact ⟨rfl, rfl⟩

end Doubling

/-! ## Adding to any vector -/

/-- The vectors that additions build from a positive capacity: the buckets in use are live. -/
structure Growing (vector : ImVector ε) : Prop where
  sized : Sized vector
  live : ∀ bucket ∈ vector.buckets.take vector.inuse, bucket.value.status = .live
  positive : 0 < vector.numberOfBuckets
  isInt : vector.numberOfBuckets < 2147483648

section Adding

variable {vector : ImVector ε} {bucket : ImVectorBucket ε}

theorem imAddElement_of_dead (dead : bucket.value.status ≠ .live) :
    imAddElement vector bucket = some (vector, -1) ∧ imAddElementWrites vector bucket = [] := by
  simp [imAddElement, addWith, imAddElementWrites, addWrites, dead]

/-- An addition to a full vector goes on with the resized one. -/
theorem addWith_of_full {resize : ImVector ε → Option (ImVector ε × Bool)} {middle : ImVector ε}
    (live : bucket.value.status = .live) (full : vector.numberOfBuckets ≤ vector.inuse)
    (resized : resize vector = some (middle, true))
    (room : middle.inuse < middle.numberOfBuckets) :
    addWith resize vector bucket = addWith resize middle bucket := by
  rw [addWith_of_room live room]
  simp [addWith, live, full, resized, room]

theorem Growing.of_filled {attached : Attached (ImObject ε)} {used free : List (ImVectorBucket ε)}
    (live : ∀ bucket ∈ used, bucket.value.status = .live)
    (positive : 0 < used.length + free.length) (isInt : used.length + free.length < 2147483648) :
    Growing (filled attached used free) := by
  refine ⟨⟨by simp [filled], Nat.le_add_right _ _⟩, fun bucket member => ?_, positive,
    isInt⟩
  exact live bucket (used_filled attached used free ▸ member)

section Full

variable {attached : Attached (ImObject ε)} {used : List (ImVectorBucket ε)}

/-- A full vector whose doubled size does not fit an `int` stays as it is. -/
theorem imAddElement_of_large (live : bucket.value.status = .live)
    (large : 1073741824 ≤ used.length) (isInt : used.length < 2147483648) :
    imAddElement (filled attached used []) bucket = some (filled attached used [], -1) ∧
      imAddElementWrites (filled attached used []) bucket = [] := by
  obtain ⟨refused, noWrites⟩ :=
    @resize_refused ε (filled attached used []) (by simpa using large) (by simpa using isInt)
      used.length
  have full : (filled attached used []).numberOfBuckets ≤ (filled attached used []).inuse := by
    simp
  have fuel : (filled attached used []).numberOfBuckets + 1 = used.length + 1 := by simp
  constructor
  · simp only [imAddElement, addWith, if_pos live, if_pos full, fuel, refused]
  · simp only [imAddElementWrites, addWrites, if_pos live, if_pos full, fuel, refused, noWrites,
      List.append_nil]

/-- Adding to a full vector of live buckets doubles it. -/
theorem imAddElement_of_full (used_live : ∀ bucket ∈ used, bucket.value.status = .live)
    (live : bucket.value.status = .live) (some_used : 0 < used.length)
    (small : used.length < 1073741824) :
    imAddElement (filled attached used []) bucket =
        some (filled attached.carry (used ++ [bucket])
          (List.replicate (used.length - 1) ⟨0, .empty⟩), (used.length : Int)) ∧
      ∀ write ∈ imAddElementWrites (filled attached used []) bucket, write.Inside := by
  have resized := @resizeWith_filled ε attached used used_live small used.length
  have begins : List.replicate used.length (⟨0, .empty⟩ : ImVectorBucket ε) =
      ⟨0, .empty⟩ :: List.replicate (used.length - 1) ⟨0, .empty⟩ := by
    rw [← List.replicate_succ, Nat.sub_add_cancel some_used]
  have full : (filled attached used []).numberOfBuckets ≤ (filled attached used []).inuse := by
    simp
  have fuel : (filled attached used []).numberOfBuckets + 1 = used.length + 1 := by simp
  rw [begins] at resized
  constructor
  · rw [imAddElement, fuel, addWith_of_full live full resized (filled_room ..)]
    exact addWith_filled live (by simp only [List.length_replicate]; omega)
  · intro write member
    simp only [imAddElementWrites, addWrites, if_pos live, if_pos full, fuel, resized,
      List.mem_append, List.mem_singleton] at member
    rcases member with early | rfl
    · exact resizeWrites_inside used_live small _ write early
    · exact filled_room attached.carry used _ _

end Full

/-- `im_add_element` appends a live bucket, unless the doubled size does not fit an `int`, and
writes inside of its blocks. -/
theorem Growing.add (growing : Growing vector) (live : bucket.value.status = .live) :
    ∃ after code, imAddElement vector bucket = some (after, code) ∧ Growing after ∧
      (∀ write ∈ imAddElementWrites vector bucket, write.Inside) ∧
      ((1073741824 ≤ vector.numberOfBuckets ∧ vector.numberOfBuckets = vector.inuse ∧
          after = vector ∧ code = -1) ∨
        (code = vector.inuse ∧ after.inuse = vector.inuse + 1 ∧
          after.buckets.take after.inuse = vector.buckets.take vector.inuse ++ [bucket] ∧
          (after.attached = vector.attached ∨ after.attached = vector.attached.carry))) := by
  have grows := growing
  obtain ⟨sized, used_live, positive, isInt⟩ := growing
  have shape := eq_filled sized
  generalize vector.buckets.take vector.inuse = used at shape used_live
  generalize vector.buckets.drop vector.inuse = free at shape
  generalize vector.attached = attached at shape
  subst shape
  rw [filled_numberOfBuckets] at positive isInt
  have both : ∀ other ∈ used ++ [bucket], other.value.status = .live := by
    intro other member
    rcases List.mem_append.mp member with old | new
    · exact used_live other old
    · exact List.mem_singleton.mp new ▸ live
  cases free with
  | cons old free =>
      simp only [List.length_cons] at isInt
      refine ⟨filled attached (used ++ [bucket]) free, used.length,
        addWith_filled live (by omega), .of_filled both (by simp) (by simp; omega), ?_,
        Or.inr ⟨rfl, List.length_append, used_filled .., Or.inl rfl⟩⟩
      intro write member
      rw [imAddElementWrites, addWrites_of_room live (filled_room ..), List.mem_singleton] at member
      exact member ▸ filled_room attached used free old
  | nil =>
      simp only [List.length_nil, Nat.add_zero] at positive isInt
      by_cases large : 1073741824 ≤ used.length
      · obtain ⟨refused, noWrites⟩ := @imAddElement_of_large ε bucket attached used live large isInt
        refine ⟨_, -1, refused, grows, by simp [noWrites], Or.inl ⟨by simpa using large, ?_, rfl,
          rfl⟩⟩
        simp
      · obtain ⟨added, inside⟩ := @imAddElement_of_full ε bucket attached used used_live live
          positive (Nat.lt_of_not_le large)
        refine ⟨_, _, added, .of_filled both (by simp) ?_, inside,
          Or.inr ⟨rfl, List.length_append, used_filled .., Or.inr rfl⟩⟩
        simp only [List.length_append, List.length_singleton, List.length_replicate]
        omega

end Adding

/-! ## Arrays of dictionaries -/

section Arrays

open Beai3Dict ImSerialize ImHashtable

/-- The bucket that `AddArrayDict` adds for a dictionary. -/
def dictBucket (child : ImHashtable Owned) : Option (ImVectorBucket Owned) :=
  nestedBucket .externalNested (hashSize child.numberOfBuckets + child.extra.attachedOffset)
    (hashSize child.numberOfBuckets + child.extra.attachedSize) (.alloc (.hashtable child))

/-- The writes of the `im_add_element` call in `AddArrayDict`. -/
def addArrayDictWrites (vector : ImVector Owned) (child : ImHashtable Owned) : List BucketWrite :=
  match dictBucket child with
  | none => []
  | some adding => imAddElementWrites vector adding

/-- `AddArrayDict` calls one after the other. -/
def addDicts : ImVector Owned → List (ImHashtable Owned) → Option (ImVector Owned)
  | vector, [] => some vector
  | vector, child :: rest =>
      match addArrayDict owned vector (.alloc (.hashtable child)) with
      | none => none
      | some (after, _) => addDicts after rest

/-- The writes of these calls. -/
def addDictsWrites : ImVector Owned → List (ImHashtable Owned) → List BucketWrite
  | _, [] => []
  | vector, child :: rest =>
      addArrayDictWrites vector child ++
        match addArrayDict owned vector (.alloc (.hashtable child)) with
        | none => []
        | some (after, _) => addDictsWrites after rest

variable {vector : ImVector Owned}

theorem addArrayDict_owned (vector : ImVector Owned) (child : ImHashtable Owned) :
    addArrayDict owned vector (.alloc (.hashtable child)) =
      match dictBucket child with
      | none => some (vector, -1)
      | some adding => imAddElement vector adding := by
  simp only [addArrayDict, dictBucket, owned_read, Owned.content, Option.bind_eq_bind,
    Option.bind_some]
  cases nestedBucket .externalNested (hashSize child.numberOfBuckets + child.extra.attachedOffset)
      (hashSize child.numberOfBuckets + child.extra.attachedSize)
      (Owned.alloc (.hashtable child)) with
  | none => rfl
  | some adding => exact owned_lift _

theorem dictBucket_live {child : ImHashtable Owned} {adding : ImVectorBucket Owned}
    (made : dictBucket child = some adding) : adding.value.status = .live := by
  unfold dictBucket nestedBucket at made
  split at made
  · cases made
  · cases made
    rfl

/-- One call keeps the array growing and writes inside of its blocks. -/
theorem Growing.addDict (growing : Growing vector) (child : ImHashtable Owned) :
    ∃ after code, addArrayDict owned vector (.alloc (.hashtable child)) = some (after, code) ∧
      Growing after ∧ ∀ write ∈ addArrayDictWrites vector child, write.Inside := by
  rw [addArrayDict_owned, addArrayDictWrites]
  cases made : dictBucket child with
  | none => exact ⟨vector, -1, rfl, growing, by simp⟩
  | some adding =>
      obtain ⟨after, code, added, grows, inside, -⟩ := growing.add (dictBucket_live made)
      exact ⟨after, code, added, grows, inside⟩

/-- All calls return, and all writes are inside. -/
theorem Growing.addDicts (growing : Growing vector) (children : List (ImHashtable Owned)) :
    (addDicts vector children).isSome ∧
      ∀ write ∈ addDictsWrites vector children, write.Inside := by
  induction children generalizing vector with
  | nil => simp [ImVector.addDicts, addDictsWrites]
  | cons child rest ih =>
      obtain ⟨after, code, added, grows, inside⟩ := growing.addDict child
      obtain ⟨returns, later⟩ := ih grows
      rw [ImVector.addDicts, addDictsWrites, added]
      refine ⟨returns, fun write member => ?_⟩
      rcases List.mem_append.mp member with now | next
      · exact inside write now
      · exact later write next

theorem initArray_growing {capacity : Int} (isInt : capacity < 2147483648)
    (created : initArray capacity = some vector) (positive : 1 ≤ capacity) : Growing vector := by
  obtain ⟨size, rfl⟩ := Int.eq_ofNat_of_zero_le (by omega : 0 ≤ capacity)
  rw [initArray, if_neg (by omega)] at created
  cases created
  have shape := @imInitializeVector_eq Owned size (by omega) Attached.none
  rw [show (imInitializeVector size : ImVector Owned) =
    filled Attached.none [] (List.replicate size ⟨0, .empty⟩) from shape]
  refine .of_filled (by simp) ?_ ?_
  · simp only [List.length_nil, List.length_replicate]
    omega
  · simp only [List.length_nil, List.length_replicate]
    omega

/-- Doubling no buckets makes no room, and the addition goes behind the block. -/
theorem imAddElementWrites_zero {bucket : ImVectorBucket Owned}
    (live : bucket.value.status = .live) :
    ⟨0, 0⟩ ∈ imAddElementWrites (imInitializeVector 0) bucket := by
  have resized := @resizeWith_filled Owned Attached.none [] (by simp) (by simp) 0
  have shape : (imInitializeVector 0 : ImVector Owned) = filled Attached.none [] [] :=
    imInitializeVector_eq (by decide) Attached.none
  simp only [shape, imAddElementWrites, addWrites, if_pos live]
  rw [if_pos (by simp)]
  simp only [filled_numberOfBuckets, List.length_nil, resized]
  simp [filled]

theorem dictBucket_initial :
    ∃ adding, dictBucket (imInitializeHashtable 0) = some adding := by
  have size : (imInitializeHashtable 0 : ImHashtable Owned).numberOfBuckets = 3 :=
    PrimeTable.numberOfBuckets_zero
  have offset : (imInitializeHashtable 0 : ImHashtable Owned).extra.attachedOffset = 0 := rfl
  rw [dictBucket, nestedBucket, size, offset, if_neg (by decide)]
  exact ⟨_, rfl⟩

/-- An array of no buckets takes its first dictionary behind its block. -/
theorem addDictsWrites_zero :
    ⟨0, 0⟩ ∈ addDictsWrites (imInitializeVector 0) [imInitializeHashtable 0] := by
  obtain ⟨adding, made⟩ := dictBucket_initial
  rw [addDictsWrites, addArrayDictWrites, made, List.mem_append]
  exact Or.inl (imAddElementWrites_zero (dictBucket_live made))

/-- The writes of `AddArrayDict` calls stay inside of their blocks whatever dictionaries they
add just when the array was created with some capacity, and then all of the calls return. -/
theorem addArrayDict_writes_inside_iff {capacity : Int} (isInt : capacity < 2147483648)
    (created : initArray capacity = some vector) :
    ((∀ children, ∀ write ∈ addDictsWrites vector children, write.Inside) ↔ 1 ≤ capacity) ∧
      (1 ≤ capacity → ∀ children, (addDicts vector children).isSome) := by
  refine ⟨⟨fun inside => ?_, fun positive children => ?_⟩, fun positive children => ?_⟩
  · by_contra small
    have accepted : ¬ capacity < 0 := by
      intro negative
      simp [initArray, negative] at created
    obtain rfl : capacity = 0 := by omega
    cases created
    exact absurd (inside _ _ addDictsWrites_zero) (by decide)
  · exact ((initArray_growing isInt created positive).addDicts children).2
  · exact ((initArray_growing isInt created positive).addDicts children).1

theorem addArrayDict_writes_inside_one :
    (addDicts (imInitializeVector 1) [imInitializeHashtable 0, imInitializeHashtable 0]).isSome ∧
      ¬ ∃ write ∈ addDictsWrites (imInitializeVector 1)
        [imInitializeHashtable 0, imInitializeHashtable 0], ¬ write.Inside := by
  obtain ⟨inside, returns⟩ :=
    addArrayDict_writes_inside_iff (by decide) (show initArray 1 = some _ from rfl)
  refine ⟨returns (by decide) _, ?_⟩
  rintro ⟨write, member, outside⟩
  exact outside (inside.mpr (by decide) _ write member)

theorem not_addArrayDict_writes_inside :
    initArray 0 = some (imInitializeVector 0 : ImVector Owned) ∧
      ⟨0, 0⟩ ∈ addDictsWrites (imInitializeVector 0) [imInitializeHashtable 0] ∧
      ¬ BucketWrite.Inside ⟨0, 0⟩ :=
  ⟨rfl, addDictsWrites_zero, by decide⟩

end Arrays

end FrameCode.ImVector
