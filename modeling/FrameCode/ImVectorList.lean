import FrameCode.DictSerialize
import FrameCode.ImVectorGrowth

/-!
# Vectors as lists

A vector stands for the list of its elements: adding appends, deleting and setting work at an
index, and serialising leaves the elements as they are but for the nested ones, which it replaces
by their serialised form.  This holds over every run of calls in which the nested elements are
small enough for their serialised length to fit an `int`.
-/

namespace FrameCode.ImVector

open OpenAddressing RegionMemory ImTypes ImSerialize MachineInt Beai3Dict

/-! ## Calls -/

section Releases

variable {ε : Type} {m : Type → Type} [Monad m] (memory : Memory m ε)

/-- `im_del_element` with the release of the deleted bucket. -/
def delElement (vector : ImVector ε) (position : Int) : m (ImVector ε × Int) := do
  match imGetElement vector position with
  | none => pure ()
  | some bucket => freeBucket memory vector.attached bucket
  pure (imDelElement vector position)

/-- `im_set_element` with the release of the bucket it replaces. -/
def setElement (vector : ImVector ε) (position : Int) (bucket : ImVectorBucket ε) :
    m (ImVector ε × Int) := do
  if bucket.value.status = .live then
    match imGetElement vector position with
    | none => pure ()
    | some old => freeBucket memory vector.attached old
  pure (imSetElement vector position bucket)

/-- `im_empty_vector` with the release of all buckets in use. -/
def emptyVector (vector : ImVector ε) : m (ImVector ε) := do
  (vector.buckets.take vector.inuse).forM fun bucket => freeBucket memory vector.attached bucket
  pure (imEmptyVector vector)

end Releases

inductive Operation
  | add (bucket : ImVectorBucket Owned)
  | del (position : Int)
  | set (position : Int) (bucket : ImVectorBucket Owned)
  | empty
  | serialize (fuel : Nat)

/-- The vector and the code after a call. -/
def perform (vector : ImVector Owned) : Operation → Option (ImVector Owned × Int)
  | .add bucket => imAddElement vector bucket
  | .del position => delElement owned vector position
  | .set position bucket => setElement owned vector position bucket
  | .empty => (emptyVector owned vector).map fun emptied => (emptied, 0)
  | .serialize fuel => imSerializeVector fuel vector

/-! ## Lists -/

/-- What a bucket of the caller stands for; it has no attached object. -/
def Given (bucket : ImVectorBucket Owned) (seen : Seen) : Prop :=
  Sees Attached.none bucket seen ∧ ∀ kind object, seen = .nested kind object → Formed kind object

/-- The same element, with the serialised form of a nested object. -/
def SerializedSeen (seen seen' : Seen) : Prop :=
  SameShape seen seen' ∧ ∀ kind object object', seen = .nested kind object →
    seen' = .nested kind object' → Serialized kind object object'

def InRange (elements : List Seen) (position : Int) : Prop :=
  0 ≤ position ∧ position < elements.length

/-- The list and the code after an operation. -/
inductive ListStep (elements : List Seen) : Operation → List Seen → Int → Prop
  | add {bucket : ImVectorBucket Owned} {seen : Seen} (live : bucket.value.status = .live)
      (given : Given bucket seen) :
      ListStep elements (.add bucket) (elements ++ [seen]) elements.length
  | addDead {bucket : ImVectorBucket Owned} (dead : bucket.value.status ≠ .live) :
      ListStep elements (.add bucket) elements (-1)
  | del {position : Int} (inside : InRange elements position) :
      ListStep elements (.del position) (elements.eraseIdx position.toNat) position
  | delOutside {position : Int} (outside : ¬ InRange elements position) :
      ListStep elements (.del position) elements (-1)
  | set {position : Int} {bucket : ImVectorBucket Owned} {seen : Seen}
      (live : bucket.value.status = .live) (given : Given bucket seen)
      (inside : InRange elements position) :
      ListStep elements (.set position bucket) (elements.set position.toNat seen) position
  | setRefused {position : Int} {bucket : ImVectorBucket Owned}
      (refused : bucket.value.status ≠ .live ∨ ¬ InRange elements position) :
      ListStep elements (.set position bucket) elements (-1)
  | empty : ListStep elements .empty [] 0
  | serialize {fuel : Nat} {elements' : List Seen} {code : Int}
      (serialized : List.Forall₂ SerializedSeen elements elements') :
      ListStep elements (.serialize fuel) elements' code

/-- The lists of a run of operations with their codes, the latest first. -/
inductive ListRun : List (Operation × Int) → List Seen → Prop
  | init : ListRun [] []
  | step {operations : List (Operation × Int)} {elements elements' : List Seen}
      {operation : Operation} {code : Int} (before : ListRun operations elements)
      (step : ListStep elements operation elements' code) :
      ListRun ((operation, code) :: operations) elements'

/-! ## Runs -/

/-- The bucket of the caller can be read, and a resize is asked for a number of buckets that fits
an `int`: no allocation succeeds for another one. -/
def Admissible (vector : ImVector Owned) : Operation → Prop
  | .add bucket => (∃ seen, Given bucket seen) ∧
      (vector.inuse < vector.numberOfBuckets ∨ vector.numberOfBuckets < 1073741824)
  | .set _ bucket => ∃ seen, Given bucket seen
  | _ => True

/-- The nested elements of a vector that is serialised have serialised lengths that fit an
`int`. -/
def Fits (vector : ImVector Owned) : Operation → Prop
  | .serialize _ => ∀ bucket ∈ usedBuckets vector, ∀ kind object,
      Sees vector.attached bucket (.nested kind object) → Small object
  | _ => True

/-- The vectors of a run from `im_initialize_vector(capacity)`, with the operations and their
codes, the latest first. -/
inductive Run (allowed : ImVector Owned → Operation → Prop) (capacity : Int) :
    List (Operation × Int) → ImVector Owned → Prop
  | init : Run allowed capacity [] (imInitializeVector capacity)
  | step {operations : List (Operation × Int)} {vector after : ImVector Owned} {code : Int}
      (operation : Operation) (before : Run allowed capacity operations vector)
      (admissible : Admissible vector operation) (allows : allowed vector operation)
      (performed : perform vector operation = some (after, code)) :
      Run allowed capacity ((operation, code) :: operations) after

/-- The values that a vector takes: they are neither `EMPTY` nor `DELETED`, and a nested object can
be read. -/
structure IsElement (seen : Seen) : Prop where
  live : seenStatus seen = .live
  formed : ∀ kind object, seen = .nested kind object → Formed kind object

/-- A vector stands for a list. -/
structure Represents (vector : ImVector Owned) (elements : List Seen) : Prop where
  sized : Sized vector
  positive : 0 < vector.numberOfBuckets
  isInt : vector.numberOfBuckets < 2147483648
  separated : Area.Separated ImObject.size vector.attached.area
  sees : List.Forall₂ (Sees vector.attached) (usedBuckets vector) elements
  isElement : ∀ seen ∈ elements, IsElement seen

section Reading

variable {vector : ImVector Owned} {elements : List Seen}

theorem Represents.growing (represents : Represents vector elements) : Growing vector := by
  refine ⟨represents.sized, fun bucket member => ?_, represents.positive, represents.isInt⟩
  obtain ⟨seen, seenMember, sees⟩ := exists_image represents.sees member
  rw [status_of_sees sees]
  exact (represents.isElement seen seenMember).live

/-- What the caller's bucket stands for does not depend on the attached area. -/
theorem Given.sees {bucket : ImVectorBucket Owned} {seen : Seen} (given : Given bucket seen)
    (attached : Attached (ImObject Owned)) : Sees attached bucket seen := by
  obtain ⟨sees, -⟩ := given
  cases sees with
  | plain isPlain => exact .plain isPlain
  | string short => exact .string short
  | externalString => exact .externalString
  | block short => exact .block short
  | externalBlock => exact .externalBlock
  | externalNested => exact .externalNested
  | externalVector => exact .externalVector
  | attachedString found | attachedBlock found | attachedNested found | attachedVector found =>
      cases found

theorem length_usedBuckets (sized : Sized vector) :
    (usedBuckets vector).length = vector.inuse := by
  obtain ⟨length_buckets, inuse_le⟩ := sized
  rw [usedBuckets, List.length_take]
  omega

theorem Represents.inuse_eq (represents : Represents vector elements) :
    vector.inuse = elements.length := by
  rw [← represents.sees.length_eq, length_usedBuckets represents.sized]

theorem Represents.inRange_iff (represents : Represents vector elements) (position : Int) :
    (0 ≤ position ∧ position < vector.inuse) ↔ InRange elements position := by
  rw [InRange, represents.inuse_eq]

/-- `im_get_element` yields the element at the index. -/
theorem Represents.get (represents : Represents vector elements) {position : Int}
    (inside : InRange elements position) :
    ∃ bucket seen, imGetElement vector position = some bucket ∧
      elements[position.toNat]? = some seen ∧ Sees vector.attached bucket seen := by
  obtain ⟨lower, upper⟩ := inside
  have inuse_eq := represents.inuse_eq
  have index : position.toNat < elements.length := by omega
  have used : position.toNat < (usedBuckets vector).length := by
    rw [represents.sees.length_eq]
    exact index
  refine ⟨(usedBuckets vector)[position.toNat], elements[position.toNat], ?_,
    List.getElem?_eq_getElem index, represents.sees.get used index⟩
  rw [imGetElement, if_pos (by omega), ← List.getElem?_eq_getElem used, usedBuckets,
    List.getElem?_take_of_lt (by omega)]

theorem Represents.get_outside (represents : Represents vector elements) {position : Int}
    (outside : ¬ InRange elements position) : imGetElement vector position = none := by
  rw [imGetElement, if_neg (mt (represents.inRange_iff position).mp outside)]

end Reading

/-! ## One call -/

section Calls

variable {vector : ImVector Owned} {elements : List Seen}

theorem freeBucket_of_represents (represents : Represents vector elements) {position : Int}
    {bucket : ImVectorBucket Owned} (found : imGetElement vector position = some bucket) :
    freeBucket owned vector.attached bucket = some () := by
  by_cases inside : InRange elements position
  · obtain ⟨other, seen, got, -, sees⟩ := represents.get inside
    rw [found] at got
    cases got
    exact freeBucket_owned sees
  · rw [represents.get_outside inside] at found
    cases found

theorem delElement_eq (represents : Represents vector elements) (position : Int) :
    delElement owned vector position = some (imDelElement vector position) := by
  unfold delElement
  cases found : imGetElement vector position with
  | none => rfl
  | some bucket =>
      simp only [freeBucket_of_represents represents found]
      rfl

theorem setElement_eq (represents : Represents vector elements) (position : Int)
    (bucket : ImVectorBucket Owned) :
    setElement owned vector position bucket = some (imSetElement vector position bucket) := by
  unfold setElement
  by_cases live : bucket.value.status = .live
  · rw [if_pos live]
    cases found : imGetElement vector position with
    | none => rfl
    | some old =>
        simp only [freeBucket_of_represents represents found]
        rfl
  · rw [if_neg live]
    rfl

theorem freeBuckets_of_sees {attached : Attached (ImObject Owned)}
    {buckets : List (ImVectorBucket Owned)} {seens : List Seen}
    (sees : List.Forall₂ (Sees attached) buckets seens) :
    (forM buckets fun bucket => freeBucket owned attached bucket) = some () := by
  induction sees with
  | nil => rfl
  | cons first _ ih => simp [freeBucket_owned first, ih]

theorem emptyVector_eq (represents : Represents vector elements) :
    emptyVector owned vector = some (imEmptyVector vector) := by
  have freed := freeBuckets_of_sees represents.sees
  rw [usedBuckets] at freed
  unfold emptyVector
  simp only [List.forM_eq_forM, freed]
  rfl

theorem length_del (sized : Sized vector) {position : Int}
    (used : 0 ≤ position ∧ position < vector.inuse) :
    ((usedBuckets vector).eraseIdx position.toNat).length +
      (vector.buckets.drop (vector.inuse - 1)).length = vector.numberOfBuckets := by
  have length_used := length_usedBuckets sized
  obtain ⟨length_buckets, inuse_le⟩ := sized
  rw [List.length_eraseIdx_of_lt (by omega), length_used, List.length_drop]
  omega

/-- The buckets that a deletion leaves in use, and behind them the free ones and the last one that
was in use. -/
theorem imDelElement_inside (sized : Sized vector) (isInt : vector.numberOfBuckets < 2147483648)
    {position : Int} (used : 0 ≤ position ∧ position < vector.inuse) :
    imDelElement vector position =
      (filled vector.attached ((usedBuckets vector).eraseIdx position.toNat)
        (vector.buckets.drop (vector.inuse - 1)), position) := by
  have whole := length_del sized used
  have length_used := length_usedBuckets sized
  have inuse_le := sized.inuse_le
  have less : pred32 vector.inuse = vector.inuse - 1 := pred32_eq (by omega) (by omega)
  have first : (usedBuckets vector).take position.toNat = vector.buckets.take position.toNat := by
    rw [usedBuckets, List.take_take, Nat.min_eq_left (by omega)]
  have length_eq : ((usedBuckets vector).eraseIdx position.toNat).length = vector.inuse - 1 := by
    rw [List.length_eraseIdx_of_lt (by omega), length_used]
  rw [imDelElement, if_pos used, less, filled, whole, length_eq, List.eraseIdx_eq_take_drop_succ,
    first, usedBuckets]

theorem represents_filled {attached : Attached (ImObject Owned)}
    {used free : List (ImVectorBucket Owned)} (positive : 0 < used.length + free.length)
    (isInt : used.length + free.length < 2147483648)
    (separated : Area.Separated ImObject.size attached.area)
    (sees : List.Forall₂ (Sees attached) used elements)
    (isElement : ∀ seen ∈ elements, IsElement seen) :
    Represents (filled attached used free) elements := by
  refine ⟨⟨List.length_append, Nat.le_add_right _ _⟩, positive, isInt, separated, ?_, isElement⟩
  rw [usedBuckets, used_filled]
  exact sees

/-- `im_del_element` takes out the element at the index. -/
theorem Represents.del (represents : Represents vector elements) {position : Int}
    (inside : InRange elements position) :
    ∃ after, imDelElement vector position = (after, position) ∧
      Represents after (elements.eraseIdx position.toNat) := by
  have used := (represents.inRange_iff position).mpr inside
  obtain ⟨sized, positive, isInt, separated, sees, isElement⟩ := represents
  have length_eq := length_del sized used
  refine ⟨_, imDelElement_inside sized isInt used, represents_filled (length_eq ▸ positive)
    (length_eq ▸ isInt) separated ?_ ?_⟩
  · rw [List.eraseIdx_eq_take_drop_succ, List.eraseIdx_eq_take_drop_succ]
    exact List.rel_append (List.forall₂_take _ sees) (List.forall₂_drop _ sees)
  · intro seen member
    exact isElement seen (List.mem_of_mem_eraseIdx member)

theorem Represents.del_outside (represents : Represents vector elements) {position : Int}
    (outside : ¬ InRange elements position) : imDelElement vector position = (vector, -1) := by
  rw [imDelElement, if_neg (mt (represents.inRange_iff position).mp outside)]

theorem forall₂_set {α β : Type} {related : α → β → Prop} {items : List α} {images : List β}
    (each : List.Forall₂ related items images) {item : α} {image : β}
    (holds : related item image) (index : Nat) :
    List.Forall₂ related (items.set index item) (images.set index image) := by
  induction each generalizing index with
  | nil => exact .nil
  | cons first rest ih =>
      cases index with
      | zero => exact .cons holds rest
      | succ index => exact .cons first (ih index)

theorem isElement_of_given {bucket : ImVectorBucket Owned} {seen : Seen}
    (live : bucket.value.status = .live) (given : Given bucket seen) : IsElement seen :=
  ⟨(status_of_sees given.1).symm.trans live, given.2⟩

/-- `im_set_element` replaces the element at the index. -/
theorem Represents.set (represents : Represents vector elements) {position : Int}
    {bucket : ImVectorBucket Owned} {seen : Seen} (live : bucket.value.status = .live)
    (given : Given bucket seen) (inside : InRange elements position) :
    ∃ after, imSetElement vector position bucket = (after, position) ∧
      Represents after (elements.set position.toNat seen) := by
  have used := (represents.inRange_iff position).mpr inside
  obtain ⟨⟨length_buckets, inuse_le⟩, positive, isInt, separated, sees, isElement⟩ := represents
  rw [imSetElement, if_pos live, if_pos used]
  refine ⟨_, rfl, ⟨?_, inuse_le⟩, positive, isInt, separated, ?_, ?_⟩
  · rw [List.length_set]
    exact length_buckets
  · rw [usedBuckets, List.take_set]
    exact forall₂_set sees (given.sees vector.attached) _
  · intro other member
    rcases List.mem_or_eq_of_mem_set member with old | rfl
    · exact isElement other old
    · exact isElement_of_given live given

theorem Represents.set_refused (represents : Represents vector elements) {position : Int}
    {bucket : ImVectorBucket Owned}
    (refused : bucket.value.status ≠ .live ∨ ¬ InRange elements position) :
    imSetElement vector position bucket = (vector, -1) := by
  rw [imSetElement]
  by_cases live : bucket.value.status = .live
  · rw [if_pos live]
    have outside := refused.resolve_left (not_not_intro live)
    rw [if_neg (mt (represents.inRange_iff position).mp outside)]
  · rw [if_neg live]

theorem Represents.empty (represents : Represents vector elements) :
    Represents (imEmptyVector vector) [] := by
  obtain ⟨⟨length_buckets, -⟩, positive, isInt, separated, -, -⟩ := represents
  exact ⟨⟨length_buckets, Nat.zero_le _⟩, positive, isInt, separated, .nil, nofun⟩

/-- `im_add_element` appends the element, also when the vector is resized for it. -/
theorem Represents.add (represents : Represents vector elements)
    {bucket : ImVectorBucket Owned} {seen : Seen} (live : bucket.value.status = .live)
    (given : Given bucket seen)
    (room : vector.inuse < vector.numberOfBuckets ∨ vector.numberOfBuckets < 1073741824) :
    ∃ after, imAddElement vector bucket = some (after, (elements.length : Int)) ∧
      Represents after (elements ++ [seen]) := by
  obtain ⟨after, code, added, grows, -, outcome⟩ := represents.growing.add live
  rcases outcome with ⟨large, full, -⟩ | ⟨rfl, -, used, attached⟩
  · omega
  · rw [represents.inuse_eq] at added
    have isElement : ∀ other ∈ elements ++ [seen], IsElement other := by
      intro other member
      rcases List.mem_append.mp member with old | new
      · exact represents.isElement other old
      · exact List.mem_singleton.mp new ▸ isElement_of_given live given
    have newSees : Sees after.attached bucket seen := given.sees after.attached
    refine ⟨after, added, grows.sized, grows.positive, grows.isInt, ?_, ?_, isElement⟩
    · rcases attached with same | carried
      · exact same ▸ represents.separated
      · exact carried ▸ represents.separated.clip _
    · rw [usedBuckets, used]
      refine List.rel_append ?_ (.cons newSees .nil)
      rcases attached with same | carried
      · exact same ▸ represents.sees
      · exact carried ▸ represents.sees.imp fun _ _ => Sees.carry

theorem forall₂_serializedSeen {elements' : List Seen}
    (shapes : List.Forall₂ SameShape elements elements')
    (serialized : ∀ kind object object',
      (Seen.nested kind object, Seen.nested kind object') ∈ elements.zip elements' →
        Serialized kind object object') :
    List.Forall₂ SerializedSeen elements elements' := by
  rw [List.forall₂_iff_zip] at shapes ⊢
  refine ⟨shapes.1, fun {seen seen'} member => ⟨shapes.2 member, ?_⟩⟩
  rintro kind object object' rfl rfl
  exact serialized kind object object' member

theorem isElement_serialized {elements' : List Seen}
    (isElement : ∀ seen ∈ elements, IsElement seen)
    (serialized : List.Forall₂ SerializedSeen elements elements') :
    ∀ seen ∈ elements', IsElement seen := by
  intro seen member
  obtain ⟨before, beforeMember, shape, nested⟩ := exists_image serialized.flip member
  refine ⟨(seenStatus_eq shape).trans (isElement before beforeMember).live, ?_⟩
  rintro kind object rfl
  obtain ⟨source, rfl⟩ := shape.nested_left
  exact (nested kind source object rfl rfl).formed

/-- `im_serialize_vector` ends and replaces the nested elements by their serialised form, if these
fit an `int`. -/
theorem Represents.serialize (represents : Represents vector elements) {fuel : Nat}
    (fits : Fits vector (.serialize fuel)) :
    ∃ after code elements', Represents after elements' ∧
      List.Forall₂ SerializedSeen elements elements' ∧
      ∃ depth, ∀ fuel, depth ≤ fuel → imSerializeVector fuel vector = some (after, code) := by
  have nested : ∀ kind object, Seen.nested kind object ∈ elements →
      ∃ object', Serialized kind object object' ∧ Ends kind object object' := by
    intro kind object member
    obtain ⟨bucket, bucketMember, sees⟩ := exists_image represents.sees.flip member
    exact ((represents.isElement _ member).formed kind object rfl).serialized
      (fits bucket bucketMember kind object sees)
  obtain ⟨elements', ⟨depth, becomes⟩, shapes, serialized⟩ := exists_becomes_all nested
  obtain ⟨sized, positive, isInt, separated, sees, isElement⟩ := represents
  obtain ⟨after, done, size_eq, inuse_eq, length_eq, arranged⟩ := serializeVector_spec
    separated (sized.length_buckets ▸ sized.inuse_le) sees
    ((becomes depth le_rfl).imp fun _ _ each => each.1)
  have serializedSeen := forall₂_serializedSeen shapes serialized
  have sizedAfter : Sized after := by
    refine ⟨?_, ?_⟩
    · rw [length_eq, size_eq, sized.length_buckets]
    · rw [inuse_eq, size_eq]
      exact sized.inuse_le
  have ends (fuel : Nat) (le : depth ≤ fuel) : imSerializeVector fuel vector = some (after, _) :=
    serializeVector_mono (fun _ _ _ => serializeObject_mono le) done
  exact ⟨after, _, elements', ⟨sizedAfter, size_eq ▸ positive, size_eq ▸ isInt,
    arranged.separated, arranged.sees, isElement_serialized isElement serializedSeen⟩,
    serializedSeen, depth, ends⟩

/-- A call that returns has the result of the calls with more fuel. -/
theorem imSerializeVector_unique {fuel depth : Nat} {after other : ImVector Owned}
    {code otherCode : Int} (returned : imSerializeVector fuel vector = some (after, code))
    (ends : ∀ fuel, depth ≤ fuel → imSerializeVector fuel vector = some (other, otherCode)) :
    after = other ∧ code = otherCode := by
  have more : imSerializeVector (max fuel depth) vector = some (after, code) :=
    serializeVector_mono (fun _ _ _ => serializeObject_mono (le_max_left _ _)) returned
  rw [ends _ (le_max_right _ _)] at more
  cases more
  exact ⟨rfl, rfl⟩

/-- An operation that returns does what the list operation does. -/
theorem Represents.step (represents : Represents vector elements) {operation : Operation}
    (admissible : Admissible vector operation) (fits : Fits vector operation)
    {after : ImVector Owned} {code : Int}
    (performed : perform vector operation = some (after, code)) :
    ∃ elements', ListStep elements operation elements' code ∧ Represents after elements' := by
  cases operation with
  | add bucket =>
      by_cases live : bucket.value.status = .live
      · obtain ⟨⟨seen, given⟩, room⟩ := admissible
        obtain ⟨appended, added, kept⟩ := represents.add live given room
        rw [perform, added] at performed
        cases performed
        exact ⟨_, .add live given, kept⟩
      · rw [perform, (imAddElement_of_dead live).1] at performed
        cases performed
        exact ⟨_, .addDead live, represents⟩
  | del position =>
      rw [perform, delElement_eq represents] at performed
      by_cases inside : InRange elements position
      · obtain ⟨shifted, deleted, kept⟩ := represents.del inside
        rw [deleted] at performed
        cases performed
        exact ⟨_, .del inside, kept⟩
      · rw [represents.del_outside inside] at performed
        cases performed
        exact ⟨_, .delOutside inside, represents⟩
  | set position bucket =>
      rw [perform, setElement_eq represents] at performed
      by_cases accepted : bucket.value.status = .live ∧ InRange elements position
      · obtain ⟨seen, given⟩ := admissible
        obtain ⟨replaced, set, kept⟩ := represents.set accepted.1 given accepted.2
        rw [set] at performed
        cases performed
        exact ⟨_, .set accepted.1 given accepted.2, kept⟩
      · have refused := not_and_or.mp accepted
        rw [represents.set_refused refused] at performed
        cases performed
        exact ⟨_, .setRefused refused, represents⟩
  | empty =>
      rw [perform, emptyVector_eq represents] at performed
      cases performed
      exact ⟨[], .empty, represents.empty⟩
  | serialize fuel =>
      obtain ⟨serialized, length, elements', kept, each, depth, ends⟩ := represents.serialize fits
      obtain ⟨rfl, rfl⟩ := imSerializeVector_unique performed ends
      exact ⟨elements', .serialize each, kept⟩

end Calls

/-! ## Whole runs -/

/-- The calls that the list refuses: an `EMPTY` or `DELETED` bucket, or an index out of range. -/
def Refused (elements : List Seen) : Operation → Prop
  | .add bucket => bucket.value.status ≠ .live
  | .del position => ¬ InRange elements position
  | .set position bucket => bucket.value.status ≠ .live ∨ ¬ InRange elements position
  | .empty | .serialize _ => False

/-- What a caller sees of a vector that stands for a list. -/
structure BehavesAs (vector : ImVector Owned) (elements : List Seen) : Prop where
  get : ∀ position, InRange elements position → ∃ bucket seen,
    imGetElement vector position = some bucket ∧ elements[position.toNat]? = some seen ∧
      Sees vector.attached bucket seen
  get_outside : ∀ position, ¬ InRange elements position → imGetElement vector position = none
  inuse_eq : vector.inuse = elements.length
  inuse_le : vector.inuse ≤ vector.numberOfBuckets
  refused : ∀ operation, Refused elements operation →
    perform vector operation = some (vector, -1)

/-- The operation returns, `im_serialize_vector` with enough fuel for the nesting. -/
def Returns (vector : ImVector Owned) : Operation → Prop
  | .serialize _ => ∃ depth, ∀ fuel, depth ≤ fuel → (perform vector (.serialize fuel)).isSome
  | operation => (perform vector operation).isSome

section Runs

variable {vector : ImVector Owned} {elements : List Seen}

theorem Represents.behaves (represents : Represents vector elements) :
    BehavesAs vector elements := by
  refine ⟨fun _ => represents.get, fun _ => represents.get_outside, represents.inuse_eq,
    represents.sized.inuse_le, fun operation refused => ?_⟩
  cases operation with
  | add bucket => exact (imAddElement_of_dead refused).1
  | del position => rw [perform, delElement_eq represents, represents.del_outside refused]
  | set position bucket =>
      rw [perform, setElement_eq represents, represents.set_refused refused]
  | empty | serialize => cases refused

theorem Represents.returns (represents : Represents vector elements) {operation : Operation}
    (admissible : Admissible vector operation) (fits : Fits vector operation) :
    Returns vector operation := by
  cases operation with
  | add bucket =>
      by_cases live : bucket.value.status = .live
      · obtain ⟨⟨seen, given⟩, room⟩ := admissible
        obtain ⟨after, added, -⟩ := represents.add live given room
        exact Option.isSome_iff_exists.mpr ⟨_, added⟩
      · exact Option.isSome_iff_exists.mpr ⟨_, (imAddElement_of_dead live).1⟩
  | del position => exact Option.isSome_iff_exists.mpr ⟨_, delElement_eq represents position⟩
  | set position bucket =>
      exact Option.isSome_iff_exists.mpr ⟨_, setElement_eq represents position bucket⟩
  | empty =>
      rw [Returns, perform, emptyVector_eq represents]
      · rfl
      · exact nofun
  | serialize fuel =>
      obtain ⟨after, code, -, -, -, depth, ends⟩ := represents.serialize fits
      exact ⟨depth, fun fuel le => Option.isSome_iff_exists.mpr ⟨_, ends fuel le⟩⟩

theorem represents_initial {capacity : Int} (positive : 1 ≤ capacity)
    (isInt : capacity < 2147483648) : Represents (imInitializeVector capacity) [] := by
  obtain ⟨size, rfl⟩ := Int.eq_ofNat_of_zero_le (by omega : 0 ≤ capacity)
  have shape := @imInitializeVector_eq Owned size (by omega) Attached.none
  rw [show (imInitializeVector size : ImVector Owned) =
    filled Attached.none [] (List.replicate size ⟨0, .empty⟩) from shape]
  refine represents_filled ?_ ?_ Area.separated_empty .nil nofun
  · simp only [List.length_nil, List.length_replicate]
    omega
  · simp only [List.length_nil, List.length_replicate]
    omega

/-- Every run goes along with a run of the list. -/
theorem Run.represents {capacity : Int} (positive : 1 ≤ capacity) (isInt : capacity < 2147483648)
    {operations : List (Operation × Int)} (run : Run Fits capacity operations vector) :
    ∃ elements, ListRun operations elements ∧ Represents vector elements := by
  induction run with
  | init => exact ⟨[], .init, represents_initial positive isInt⟩
  | step operation _ admissible fits performed ih =>
      obtain ⟨elements, listRun, represents⟩ := ih
      obtain ⟨elements', step, kept⟩ := represents.step admissible fits performed
      exact ⟨elements', .step listRun step, kept⟩

/-- In every run from `im_initialize_vector(capacity)` in which the nested elements of a vector that
is serialised have lengths that fit an `int`, the vector behaves as the list of the run, and every
further operation of this kind returns. -/
theorem run_behaves_as_list {capacity : Int} (positive : 1 ≤ capacity)
    (isInt : capacity < 2147483648) {operations : List (Operation × Int)}
    (run : Run Fits capacity operations vector) :
    (∃ elements, ListRun operations elements ∧ BehavesAs vector elements) ∧
      ∀ operation, Admissible vector operation → Fits vector operation →
        Returns vector operation := by
  obtain ⟨elements, listRun, represents⟩ := run.represents positive isInt
  exact ⟨⟨elements, listRun, represents.behaves⟩, fun _ => represents.returns⟩

/-- A string that does not fit into a bucket. -/
def longString : ImVectorBucket Owned :=
  ⟨20, .externalString 20 (.alloc (.bytes (List.replicate 20 97)))⟩

/-- A vector of `2 ^ 31 + 32` bytes. -/
def largeVector : ImVectorBucket Owned :=
  ⟨2147483680, .externalVector 2147483680 (.alloc (.vector (imInitializeVector 67108864)))⟩

theorem given_longString : Given longString (.string (List.replicate 20 97)) :=
  ⟨@Sees.externalString _ 20 (List.replicate 20 97), nofun⟩

theorem given_largeVector :
    Given largeVector (.nested .vector (.vector (imInitializeVector 67108864))) := by
  refine ⟨.externalVector, ?_⟩
  rintro _ _ ⟨⟩
  exact .vector (imInitializeVector_sized _) Area.separated_empty .nil nofun

/-- Two strings that are attached, one behind the other. -/
def attachedStrings : ImVector Owned where
  numberOfBuckets := 2
  inuse := 2
  attached :=
    { attachedSize := 40
      attachedOffset := 40
      area := Area.clip ImObject.size (Area.store ImObject.size (Area.store ImObject.size
        (fun _ => none) 0 (.bytes (List.replicate 20 97))) 20 (.bytes (List.replicate 20 97))) 40 }
  buckets := [⟨20, .attachedString 20 0⟩, ⟨20, .attachedString 20 20⟩]

theorem imSerializeVector_strings :
    imSerializeVector 1 ⟨2, 2, Attached.none, [longString, longString]⟩ =
      some (attachedStrings, 136) := by
  simp [imSerializeVector, serializeVector, savedBuffer, serializeBuckets, serializeBucket_owned,
    attachBucket_owned, attachBytes, append, reserve, Growth.due, growSize, ImObject.copy,
    ImObject.size, Owned.content, shrink, Attached.carry, sizeofImValue, longString,
    attachedStrings, Attached.none, vectorSize]
  rfl

theorem run_strings : Run Fits 2
    [(.serialize 1, 136), (.add longString, 1), (.add longString, 0)] attachedStrings := by
  have first : Run Fits 2 [(.add longString, 0)] ⟨2, 1, Attached.none, [longString, ⟨0, .empty⟩]⟩ :=
    .step _ .init ⟨⟨_, given_longString⟩, Or.inl (by decide)⟩ trivial rfl
  have second : Run Fits 2 [(.add longString, 1), (.add longString, 0)]
      ⟨2, 2, Attached.none, [longString, longString]⟩ :=
    .step _ first ⟨⟨_, given_longString⟩, Or.inl (by decide)⟩ trivial rfl
  refine .step _ second trivial ?_ imSerializeVector_strings
  intro bucket member kind object sees
  have value_eq : bucket.value = longString.value := by
    rw [show bucket = longString by simpa [usedBuckets] using member]
  rw [longString] at value_eq
  cases sees <;> cases value_eq

theorem run_behaves_as_list_two : ∃ vector : ImVector Owned, vector.numberOfBuckets = 4 ∧
    ∃ elements, ListRun [(.add longString, 2), (.serialize 1, 136), (.add longString, 1),
      (.add longString, 0)] elements ∧ BehavesAs vector elements := by
  have run : Run Fits 2 [(.add longString, 2), (.serialize 1, 136), (.add longString, 1),
      (.add longString, 0)] ⟨4, 3, attachedStrings.attached.carry,
        [⟨20, .attachedString 20 0⟩, ⟨20, .attachedString 20 20⟩, longString, ⟨0, .empty⟩]⟩ :=
    .step _ run_strings ⟨⟨_, given_longString⟩, Or.inr (by decide)⟩ trivial rfl
  exact ⟨_, rfl, (run_behaves_as_list (by decide) (by decide) run).1⟩

theorem Run.imp {allowed more : ImVector Owned → Operation → Prop} {capacity : Int}
    {operations : List (Operation × Int)} (run : Run allowed capacity operations vector)
    (weaker : ∀ vector operation, allowed vector operation → more vector operation) :
    Run more capacity operations vector := by
  induction run with
  | init => exact .init
  | step operation _ admissible allows performed ih =>
      exact .step operation ih admissible (weaker _ _ allows) performed

/-- The large element is not serialised, and the attached string behind it is lost with the next
resize. -/
def losingRun : List (Operation × Int) :=
  [(.add longString, 2), (.serialize 1, -1), (.set 0 largeVector, 0), (.serialize 1, 136),
    (.add longString, 1), (.add longString, 0)]

/-- The vector after this run. -/
def lostStrings : ImVector Owned where
  numberOfBuckets := 4
  inuse := 3
  attached := { attachedStrings.attached with attachedOffset := 0 }.carry
  buckets := [largeVector, ⟨20, .attachedString 20 20⟩, longString, ⟨0, .empty⟩]

set_option maxRecDepth 4000 in
theorem run_lostStrings : Run (fun _ _ => True) 2 losingRun lostStrings := by
  have first : Run (fun _ _ => True) 2 _ attachedStrings := run_strings.imp fun _ _ _ => trivial
  have second : Run (fun _ _ => True) 2 _
      { attachedStrings with buckets := [largeVector, ⟨20, .attachedString 20 20⟩] } :=
    .step (.set 0 largeVector) first ⟨_, given_largeVector⟩ trivial rfl
  have third : Run (fun _ _ => True) 2 _
      { attachedStrings with
        attached := { attachedStrings.attached with attachedOffset := 0 }
        buckets := [largeVector, ⟨20, .attachedString 20 20⟩] } :=
    .step (.serialize 1) second trivial trivial rfl
  exact .step (.add longString) third ⟨⟨_, given_longString⟩, Or.inr (by decide)⟩ trivial rfl

theorem not_run_behaves_as_list : Run (fun _ _ => True) 2 losingRun lostStrings ∧
    ¬ ∃ elements, ListRun losingRun elements ∧ BehavesAs lostStrings elements := by
  refine ⟨run_lostStrings, ?_⟩
  rintro ⟨elements, -, behaves⟩
  have length_eq : 3 = elements.length := behaves.inuse_eq
  obtain ⟨bucket, seen, got, -, sees⟩ := behaves.get 1 ⟨by decide, by omega⟩
  have value_eq : bucket.value = .attachedString 20 20 := by
    cases got
    rfl
  cases sees with
  | plain isPlain =>
      cases value_eq
      cases isPlain
  | attachedString found =>
      cases value_eq
      cases found
  | _ => cases value_eq

end Runs

end FrameCode.ImVector
