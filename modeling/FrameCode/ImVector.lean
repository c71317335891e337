import FrameCode.ImTypes

/-!
# The vector `im_vector.c`

The list of buckets has one entry for each of the `number_of_buckets` buckets of
the block; the first `inuse` of them are in use.  A write behind the last bucket
has no defined meaning and is `none`.
-/

namespace FrameCode.ImVector

open OpenAddressing ImTypes MachineInt

variable {ε : Type}

/-- `im_initialize_vector`; the `int` capacity becomes an unsigned count. -/
def imInitializeVector (capacity : Int) : ImVector ε where
  numberOfBuckets := toUInt32 capacity.toNat
  inuse := 0
  attached := Attached.none
  buckets := List.replicate (toUInt32 capacity.toNat) ⟨0, .empty⟩

/-- `im_add_element` over a given way of resizing. -/
def addWith (resize : ImVector ε → Option (ImVector ε × Bool)) (vector : ImVector ε)
    (bucket : ImVectorBucket ε) : Option (ImVector ε × Int) :=
  let append (vector : ImVector ε) : Option (ImVector ε × Int) :=
    if vector.inuse < vector.numberOfBuckets then
      some ({ vector with
        inuse := succ32 vector.inuse
        buckets := vector.buckets.set vector.inuse bucket }, vector.inuse)
    else none
  if bucket.value.status = .live then
    if vector.numberOfBuckets ≤ vector.inuse then
      match resize vector with
      | none => none
      | some (vector, false) => some (vector, -1)
      | some (vector, true) => append vector
    else append vector
  else some (vector, -1)

/-- Add buckets one after the other, stopping at the first one that is refused. -/
def addAll (add : ImVector ε → ImVectorBucket ε → Option (ImVector ε × Int)) :
    List (ImVectorBucket ε) → ImVector ε → Option (ImVector ε × Bool)
  | [], vector => some (vector, true)
  | bucket :: rest, vector =>
      match add vector bucket with
      | none => none
      | some (vector, position) =>
          if position < 0 then some (vector, false) else addAll add rest vector

/-- `im_resize_vector`: a vector of twice the size with the same buckets and
the used part of the attached area.  A capacity that is negative as an `int` asks
`calloc` for more memory than there is. -/
def resizeWith : Nat → ImVector ε → Option (ImVector ε × Bool)
  | 0, _ => none
  | fuel + 1, vector =>
      if toInt32 (toUInt32 (2 * vector.numberOfBuckets)) < 0 then some (vector, false)
      else
        let fresh := { imInitializeVector (toInt32 (toUInt32 (2 * vector.numberOfBuckets))) with
          attached := vector.attached.carry }
        match addAll (addWith (resizeWith fuel)) vector.buckets fresh with
        | none => none
        | some (vector, true) => some (vector, true)
        | some (_, false) => some (vector, false)

def imAddElement (vector : ImVector ε) (bucket : ImVectorBucket ε) :
    Option (ImVector ε × Int) :=
  addWith (resizeWith (vector.numberOfBuckets + 1)) vector bucket

def imGetElement (vector : ImVector ε) (position : Int) : Option (ImVectorBucket ε) :=
  if 0 ≤ position ∧ position < vector.inuse then vector.buckets[position.toNat]? else none

/-- `im_del_element` on the block: the buckets behind the deleted one move up, and the last of
them stays behind as well. -/
def imDelElement (vector : ImVector ε) (position : Int) : ImVector ε × Int :=
  if 0 ≤ position ∧ position < vector.inuse then
    ({ vector with
        inuse := pred32 vector.inuse
        buckets := vector.buckets.take position.toNat ++
          (vector.buckets.take vector.inuse).drop (position.toNat + 1) ++
          vector.buckets.drop (vector.inuse - 1) }, position)
  else (vector, -1)

/-- `im_set_element` on the block. -/
def imSetElement (vector : ImVector ε) (position : Int) (bucket : ImVectorBucket ε) :
    ImVector ε × Int :=
  if bucket.value.status = .live then
    if 0 ≤ position ∧ position < vector.inuse then
      ({ vector with buckets := vector.buckets.set position.toNat bucket }, position)
    else (vector, -1)
  else (vector, -1)

/-- `im_empty_vector` on the block; the attached area keeps its size. -/
def imEmptyVector (vector : ImVector ε) : ImVector ε :=
  { vector with inuse := 0, attached := { vector.attached with attachedOffset := 0 } }

/-! ## The buckets in use -/

/-- The block has one bucket for each counted one, and no more are in use. -/
structure Sized (vector : ImVector ε) : Prop where
  length_buckets : vector.buckets.length = vector.numberOfBuckets
  inuse_le : vector.inuse ≤ vector.numberOfBuckets

/-- The buckets in use come from another vector or are new, and the attached area
has at most been carried over. -/
structure StemsFrom (vector after : ImVector ε) (added : ImVectorBucket ε → Prop) : Prop where
  sized : Sized after
  attached : ∃ times, after.attached = Attached.carry^[times] vector.attached
  buckets : ∀ bucket ∈ after.buckets.take after.inuse,
    added bucket ∨ bucket ∈ vector.buckets.take vector.inuse

section Stems

variable {vector after : ImVector ε}

theorem imInitializeVector_sized (capacity : Int) :
    Sized (imInitializeVector capacity : ImVector ε) :=
  ⟨by simp [imInitializeVector], Nat.zero_le _⟩

theorem StemsFrom.refl (sized : Sized vector) (added : ImVectorBucket ε → Prop) :
    StemsFrom vector vector added :=
  ⟨sized, ⟨0, rfl⟩, fun _ member => Or.inr member⟩

theorem StemsFrom.imp {added also : ImVectorBucket ε → Prop}
    (stems : StemsFrom vector after added) (weaker : ∀ bucket, added bucket → also bucket) :
    StemsFrom vector after also :=
  ⟨stems.sized, stems.attached, fun bucket member =>
    (stems.buckets bucket member).imp_left (weaker bucket)⟩

theorem StemsFrom.trans {middle : ImVector ε} {added : ImVectorBucket ε → Prop}
    (first : StemsFrom vector middle added) (second : StemsFrom middle after added) :
    StemsFrom vector after added := by
  obtain ⟨early, earlyAttached⟩ := first.attached
  obtain ⟨late, lateAttached⟩ := second.attached
  refine ⟨second.sized, ⟨late + early, ?_⟩, ?_⟩
  · rw [lateAttached, earlyAttached, Function.iterate_add_apply]
  · intro bucket member
    rcases second.buckets bucket member with new | old
    · exact Or.inl new
    · exact first.buckets bucket old

/-- Writing the next free bucket. -/
theorem append_stems (sized : Sized vector) (room : vector.inuse < vector.numberOfBuckets)
    (bucket : ImVectorBucket ε) :
    StemsFrom vector { vector with
      inuse := succ32 vector.inuse
      buckets := vector.buckets.set vector.inuse bucket } (· = bucket) := by
  have next : succ32 vector.inuse ≤ vector.inuse + 1 := Nat.mod_le _ _
  refine ⟨⟨by simpa using sized.length_buckets, next.trans room⟩, ⟨0, rfl⟩, ?_⟩
  intro other member
  obtain ⟨i, inside, rfl⟩ := List.mem_take_iff_getElem.mp member
  rw [List.getElem_set]
  split
  · exact Or.inl rfl
  · refine Or.inr (List.mem_take_iff_getElem.mpr ⟨i, ?_, rfl⟩)
    simp only [List.length_set] at inside
    omega

theorem addWith_stems {resize : ImVector ε → Option (ImVector ε × Bool)}
    (resizes : ∀ vector after done, Sized vector → vector.numberOfBuckets ≤ vector.inuse →
      resize vector = some (after, done) → StemsFrom vector after fun _ => False)
    (sized : Sized vector) {bucket : ImVectorBucket ε} {position : Int}
    (added : addWith resize vector bucket = some (after, position)) :
    StemsFrom vector after (· = bucket) := by
  have appended {middle : ImVector ε} (middleSized : Sized middle)
      (written : (if middle.inuse < middle.numberOfBuckets then
        some ({ middle with
          inuse := succ32 middle.inuse
          buckets := middle.buckets.set middle.inuse bucket }, (middle.inuse : Int))
        else none) = some (after, position)) : StemsFrom middle after (· = bucket) := by
    split at written
    · rename_i room
      cases written
      exact append_stems middleSized room bucket
    · cases written
  simp only [addWith] at added
  split at added
  · split at added
    · rename_i full
      split at added
      · cases added
      · rename_i resized
        cases added
        exact (resizes _ _ _ sized full resized).imp fun _ => False.elim
      · rename_i middle resized
        have stems := resizes _ _ _ sized full resized
        exact (stems.imp fun _ => False.elim).trans (appended stems.sized added)
    · exact appended sized added
  · cases added
    exact .refl sized _

theorem addAll_stems {add : ImVector ε → ImVectorBucket ε → Option (ImVector ε × Int)}
    (adds : ∀ vector after bucket position, Sized vector →
      add vector bucket = some (after, position) → StemsFrom vector after (· = bucket))
    (sized : Sized vector) {buckets : List (ImVectorBucket ε)} {done : Bool}
    (added : addAll add buckets vector = some (after, done)) :
    StemsFrom vector after (· ∈ buckets) := by
  induction buckets generalizing vector with
  | nil =>
      cases added
      exact .refl sized _
  | cons bucket rest ih =>
      simp only [addAll] at added
      split at added
      · cases added
      · rename_i middle position addedFirst
        have first : StemsFrom vector middle (· ∈ bucket :: rest) :=
          (adds _ _ _ _ sized addedFirst).imp fun _ same => by simp [same]
        split at added
        · cases added
          exact first
        · exact first.trans ((ih first.sized added).imp fun _ member =>
            List.mem_cons_of_mem _ member)

theorem resizeWith_stems {fuel : Nat} (sized : Sized vector)
    (full : vector.numberOfBuckets ≤ vector.inuse) {done : Bool}
    (resized : resizeWith fuel vector = some (after, done)) :
    StemsFrom vector after fun _ => False := by
  have freshSized (capacity : Int) (attached : Attached (ImObject ε)) :
      Sized { imInitializeVector capacity with attached := attached } :=
    ⟨(imInitializeVector_sized capacity).length_buckets, Nat.zero_le _⟩
  induction fuel generalizing vector after done with
  | zero => cases resized
  | succ fuel ih =>
      simp only [resizeWith] at resized
      split at resized
      · cases resized
        exact .refl sized _
      · split at resized
        · cases resized
        · rename_i refilled added
          cases resized
          have stems := addAll_stems
            (fun _ _ _ _ sized => addWith_stems (fun _ _ _ sized full => ih sized full) sized)
            (freshSized _ _) added
          obtain ⟨times, attached⟩ := stems.attached
          refine ⟨stems.sized, ⟨times + 1, by rw [attached, Function.iterate_add_apply]; rfl⟩, ?_⟩
          intro bucket member
          rcases stems.buckets bucket member with old | fresh
          · rw [List.take_of_length_le (sized.length_buckets.trans_le full)]
            exact Or.inr old
          · simp [imInitializeVector] at fresh
        · cases resized
          exact .refl sized _

theorem imAddElement_stems (sized : Sized vector) {bucket : ImVectorBucket ε} {position : Int}
    (added : imAddElement vector bucket = some (after, position)) :
    StemsFrom vector after (· = bucket) :=
  addWith_stems (fun _ _ _ sized full => resizeWith_stems sized full) sized added

end Stems

end FrameCode.ImVector
