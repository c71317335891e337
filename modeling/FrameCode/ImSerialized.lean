import FrameCode.ImLayout

/-!
# Serialisation at every depth

An object is `Formed` when its buckets and those of every nested object can be
read.  Serialising a formed object ends, and `Serialized` relates it to the
result at every depth.  A serialised object is a fixed point.
-/

namespace FrameCode.ImSerialize

open OpenAddressing RegionMemory ImTypes MachineInt

/-! ## More fuel -/

section Fuel

variable {serialize more : Kind → Owned → Option (Owned × Int)}

theorem serializeBucket_mono
    (extends_ : ∀ kind object result, serialize kind object = some result →
      more kind object = some result)
    {buffer : Attached (ImObject Owned)} {bucket : ImVectorBucket Owned}
    {result : ImVectorBucket Owned × Bool}
    (serialized : serializeBucket owned serialize buffer bucket = some result) :
    serializeBucket owned more buffer bucket = some result := by
  rw [serializeBucket_owned] at serialized ⊢
  cases value : bucket.value <;> simp only [value] at serialized ⊢
  case externalNested | externalVector =>
    obtain ⟨inner, done, rfl⟩ := Option.map_eq_some_iff.mp serialized
    rw [extends_ _ _ _ done, Option.map_some]
  case attachedNested | attachedVector =>
    obtain ⟨content, fetched, rest⟩ := Option.bind_eq_some_iff.mp serialized
    obtain ⟨inner, done, rfl⟩ := Option.map_eq_some_iff.mp rest
    rw [fetched, Option.bind_some, extends_ _ _ _ done, Option.map_some]
  all_goals exact serialized

theorem serializeBuckets_mono {β : Type}
    (extends_ : ∀ kind object result, serialize kind object = some result →
      more kind object = some result) {growth : Growth} {view : β → ImVectorBucket Owned}
    {put : β → ImVectorBucket Owned → β} {buffer attached : Attached (ImObject Owned)}
    {buckets : List β} {result : Attached (ImObject Owned) × List β × Bool}
    (walked : serializeBuckets owned growth view put serialize buffer attached buckets =
      some result) :
    serializeBuckets owned growth view put more buffer attached buckets = some result := by
  induction buckets generalizing attached result with
  | nil => exact walked
  | cons bucket rest ih =>
      simp only [serializeBuckets, Option.bind_eq_bind, Option.bind_eq_some_iff] at walked ⊢
      obtain ⟨serialized, done, tail⟩ := walked
      refine ⟨serialized, serializeBucket_mono extends_ done, ?_⟩
      split at tail
      · rename_i good
        simp only [Option.bind_eq_some_iff] at tail
        obtain ⟨placed, attachedEq, others, walkedRest, final⟩ := tail
        rw [if_pos good]
        simp only [Option.bind_eq_some_iff]
        exact ⟨placed, attachedEq, others, ih walkedRest, final⟩
      · rename_i bad
        rw [if_neg bad]
        exact tail

theorem serializeTable_mono
    (extends_ : ∀ kind object result, serialize kind object = some result →
      more kind object = some result) {table : ImHashtable Owned}
    {result : ImHashtable Owned × Int}
    (serialized : serializeTable owned serialize table = some result) :
    serializeTable owned more table = some result := by
  simp only [serializeTable, Option.bind_eq_bind, Option.bind_eq_some_iff] at serialized ⊢
  obtain ⟨walked, done, final⟩ := serialized
  exact ⟨walked, serializeBuckets_mono extends_ done, final⟩

theorem serializeVector_mono
    (extends_ : ∀ kind object result, serialize kind object = some result →
      more kind object = some result) {vector : ImVector Owned}
    {result : ImVector Owned × Int}
    (serialized : serializeVector owned serialize vector = some result) :
    serializeVector owned more vector = some result := by
  simp only [serializeVector, Option.bind_eq_bind, Option.bind_eq_some_iff] at serialized ⊢
  obtain ⟨walked, done, final⟩ := serialized
  exact ⟨walked, serializeBuckets_mono extends_ done, final⟩

theorem serializeObject_succ {fuel : Nat} {kind : Kind} {object : Owned} {result : Owned × Int}
    (serialized : serializeObject owned fuel kind object = some result) :
    serializeObject owned (fuel + 1) kind object = some result := by
  induction fuel generalizing kind object result with
  | zero => cases serialized
  | succ fuel ih =>
      rw [serializeObject] at serialized ⊢
      simp only [owned_read, Option.bind_eq_bind, Option.bind_some] at serialized ⊢
      split at serialized
      · obtain ⟨inner, done, final⟩ := Option.bind_eq_some_iff.mp serialized
        rw [serializeTable_mono (fun _ _ _ => ih) done]
        exact final
      · obtain ⟨inner, done, final⟩ := Option.bind_eq_some_iff.mp serialized
        rw [serializeVector_mono (fun _ _ _ => ih) done]
        exact final
      · cases serialized

theorem serializeObject_mono {fuel larger : Nat} (le : fuel ≤ larger) {kind : Kind}
    {object : Owned} {result : Owned × Int}
    (serialized : serializeObject owned fuel kind object = some result) :
    serializeObject owned larger kind object = some result := by
  induction le with
  | refl => exact serialized
  | step _ ih => exact serializeObject_succ ih

end Fuel

/-! ## Objects whose buckets can be read -/

/-- The buckets of an object and of the objects nested in it can be read. -/
inductive Formed : Kind → ImObject Owned → Prop
  | hashtable {table : ImHashtable Owned} {seens : List Seen}
      (separated : Area.Separated ImObject.size table.extra.area)
      (sees : List.Forall₂ (Sees table.extra) (commonParts table) seens)
      (children : ∀ kind object, Seen.nested kind object ∈ seens → Formed kind object) :
      Formed .nested (.hashtable table)
  | vector {vector : ImVector Owned} {seens : List Seen} (sized : ImVector.Sized vector)
      (separated : Area.Separated ImObject.size vector.attached.area)
      (sees : List.Forall₂ (Sees vector.attached) (usedBuckets vector) seens)
      (children : ∀ kind object, Seen.nested kind object ∈ seens → Formed kind object) :
      Formed .vector (.vector vector)

/-! ## The size of the serialised object -/

/-- The offset behind the object of a bucket, when the object before it ends at
`offset` and nested objects have the given sizes. -/
def behind (size : ImObject Owned → Nat) (attached : Attached (ImObject Owned)) (offset : Nat)
    (bucket : ImVectorBucket Owned) : Nat :=
  match bucket.value with
  | .externalString .. | .externalBlock .. | .attachedString .. | .attachedBlock .. =>
      if bucket.valueLength ≤ sizeofImValue then offset else offset + bucket.valueLength
  | .externalNested _ object | .externalVector _ object => aligned offset + size object.content
  | .attachedNested _ place | .attachedVector _ place =>
      aligned offset + (attached.area place).elim 0 size
  | _ => offset

/-- The bytes that an object takes when it is serialised, down to the given depth
of nesting. -/
def serialSize : Nat → ImObject Owned → Nat
  | 0, _ => 0
  | depth + 1, .hashtable table =>
      hashSize table.numberOfBuckets +
        (commonParts table).foldl (behind (serialSize depth) table.extra) 0
  | depth + 1, .vector vector =>
      vectorSize vector.numberOfBuckets +
        (usedBuckets vector).foldl (behind (serialSize depth) vector.attached) 0
  | _ + 1, object => object.size

def Seen.behind (size : ImObject Owned → Nat) (offset : Nat) : Seen → Nat
  | .plain _ => offset
  | .string bytes | .block bytes =>
      if bytes.length ≤ sizeofImValue then offset else offset + bytes.length
  | .nested _ object => aligned offset + size object

section Sizes

variable {size : ImObject Owned → Nat}

theorem behind_of_sees {attached : Attached (ImObject Owned)} {bucket : ImVectorBucket Owned}
    {seen : Seen} (sees : Sees attached bucket seen) (offset : Nat) :
    behind size attached offset bucket = seen.behind size offset := by
  cases sees with
  | @plain _ value isPlain => cases value <;> first | rfl | cases isPlain
  | string short => simp [behind, Seen.behind, short]
  | block short => simp [behind, Seen.behind, short]
  | attachedNested found => simp [behind, Seen.behind, found]
  | attachedVector found => simp [behind, Seen.behind, found]
  | _ => rfl

theorem foldl_behind {attached : Attached (ImObject Owned)} {buckets : List (ImVectorBucket Owned)}
    {seens : List Seen} (sees : List.Forall₂ (Sees attached) buckets seens) (offset : Nat) :
    buckets.foldl (behind size attached) offset = seens.foldl (Seen.behind size) offset := by
  induction sees generalizing offset with
  | nil => rfl
  | cons first _ ih => rw [List.foldl_cons, List.foldl_cons, behind_of_sees first, ih]

theorem Laid.stop_eq {area : Area (ImObject Owned)} {start stop : Nat}
    {bucket : ImVectorBucket Owned} {seen : Seen} (laid : Laid area start bucket seen stop) :
    stop = seen.behind ImObject.size start := by
  cases laid with
  | string short => simp [Seen.behind, short]
  | block short => simp [Seen.behind, short]
  | attachedString long => simp [Seen.behind, long]
  | attachedBlock long => simp [Seen.behind, long]
  | plain | nested => rfl

theorem LaidAll.stop_eq {area : Area (ImObject Owned)} {start stop : Nat}
    {buckets : List (ImVectorBucket Owned)} {seens : List Seen}
    (laid : LaidAll area start buckets seens stop) :
    stop = seens.foldl (Seen.behind ImObject.size) start := by
  induction laid with
  | nil => rfl
  | cons first _ ih => rw [List.foldl_cons, ← first.stop_eq, ih]

theorem Seen.behind_ge (seen : Seen) (offset : Nat) : offset ≤ seen.behind size offset := by
  cases seen with
  | plain => exact le_rfl
  | string | block =>
      simp only [Seen.behind]
      split <;> omega
  | nested => exact (aligned_ge offset).trans (Nat.le_add_right _ _)

theorem foldl_behind_ge (seens : List Seen) (offset : Nat) :
    offset ≤ seens.foldl (Seen.behind size) offset := by
  induction seens generalizing offset with
  | nil => exact le_rfl
  | cons seen rest ih => exact (seen.behind_ge offset).trans (ih _)

/-- A nested object is a part of the whole. -/
theorem size_le_foldl_behind {kind : Kind} {object : ImObject Owned} {seens : List Seen}
    (member : Seen.nested kind object ∈ seens) (offset : Nat) :
    size object ≤ seens.foldl (Seen.behind size) offset := by
  induction seens generalizing offset with
  | nil => cases member
  | cons seen rest ih =>
      rcases List.mem_cons.mp member with rfl | later
      · exact (Nat.le_add_left _ _).trans (foldl_behind_ge rest _)
      · exact ih later _

end Sizes

/-- Objects serialise below the limit of an `int`. -/
def Small (object : ImObject Owned) : Prop := ∀ depth, serialSize depth object < 2147483648

theorem Small.hashtable_child {table : ImHashtable Owned} {seens : List Seen}
    (small : Small (.hashtable table))
    (sees : List.Forall₂ (Sees table.extra) (commonParts table) seens) {kind : Kind}
    {object : ImObject Owned} (member : Seen.nested kind object ∈ seens) : Small object := by
  intro depth
  have whole := small (depth + 1)
  rw [serialSize, foldl_behind sees] at whole
  have part : serialSize depth object ≤ _ := size_le_foldl_behind member 0
  omega

theorem Small.vector_child {vector : ImVector Owned} {seens : List Seen}
    (small : Small (.vector vector))
    (sees : List.Forall₂ (Sees vector.attached) (usedBuckets vector) seens) {kind : Kind}
    {object : ImObject Owned} (member : Seen.nested kind object ∈ seens) : Small object := by
  intro depth
  have whole := small (depth + 1)
  rw [serialSize, foldl_behind sees] at whole
  have part : serialSize depth object ≤ _ := size_le_foldl_behind member 0
  omega

/-! ## The serialised object -/

/-- Two values of the same form; nested objects may differ. -/
inductive SameShape : Seen → Seen → Prop
  | plain {value : ImValue Owned} : SameShape (.plain value) (.plain value)
  | string {bytes : List UInt8} : SameShape (.string bytes) (.string bytes)
  | block {bytes : List UInt8} : SameShape (.block bytes) (.block bytes)
  | nested {kind : Kind} {object object' : ImObject Owned} :
      SameShape (.nested kind object) (.nested kind object')

/-- The second object is the first one after serialisation. -/
inductive Serialized : Kind → ImObject Owned → ImObject Owned → Prop
  | hashtable {table after : ImHashtable Owned} {seens seens' : List Seen}
      (size_eq : after.numberOfBuckets = table.numberOfBuckets)
      (inuse_eq : after.inuse = table.inuse)
      (keys_eq : after.buckets.map ImHashBucket.key = table.buckets.map ImHashBucket.key)
      (sees : List.Forall₂ (Sees table.extra) (commonParts table) seens)
      (arranged : Arranged after.extra (commonParts after) seens')
      (bounded : (ImObject.hashtable after).size < 2147483648)
      (shapes : List.Forall₂ SameShape seens seens')
      (children : ∀ kind object object',
        (Seen.nested kind object, Seen.nested kind object') ∈ seens.zip seens' →
          Serialized kind object object') :
      Serialized .nested (.hashtable table) (.hashtable after)
  | vector {vector after : ImVector Owned} {seens seens' : List Seen}
      (size_eq : after.numberOfBuckets = vector.numberOfBuckets)
      (inuse_eq : after.inuse = vector.inuse)
      (length_eq : after.buckets.length = vector.buckets.length) (sized : ImVector.Sized vector)
      (sees : List.Forall₂ (Sees vector.attached) (usedBuckets vector) seens)
      (arranged : Arranged after.attached (usedBuckets after) seens')
      (bounded : (ImObject.vector after).size < 2147483648)
      (shapes : List.Forall₂ SameShape seens seens')
      (children : ∀ kind object object',
        (Seen.nested kind object, Seen.nested kind object') ∈ seens.zip seens' →
          Serialized kind object object') :
      Serialized .vector (.vector vector) (.vector after)

theorem Serialized.positive {kind : Kind} {object object' : ImObject Owned}
    (serialized : Serialized kind object object') : 0 < object'.size := by
  cases serialized with
  | hashtable => simp [ImObject.size, hashSize]
  | vector => simp [ImObject.size, vectorSize]

/-- From some fuel on, the serialiser of nested objects takes the first object to
the second. -/
def Ends (kind : Kind) (object object' : ImObject Owned) : Prop :=
  ∃ depth, ∀ fuel, depth ≤ fuel →
    serializeObject owned fuel kind (.alloc object) =
      some (Owned.alloc object', (object'.size : Int)) ∧
    serialSize fuel object = object'.size

section Ending

variable {kind : Kind} {object object' : ImObject Owned}

/-- What a run of the loop over the buckets does to one of them, from some fuel
on. -/
def Becomes (fuel : Nat) (seen seen' : Seen) : Prop :=
  Serializes (serializeObject owned fuel) seen seen' ∧
    ∀ offset, seen.behind (serialSize fuel) offset = seen'.behind ImObject.size offset

theorem exists_becomes {seen : Seen}
    (nested : ∀ kind object, seen = .nested kind object →
      ∃ object', Serialized kind object object' ∧ Ends kind object object') :
    ∃ seen', (∃ depth, ∀ fuel, depth ≤ fuel → Becomes fuel seen seen') ∧
      SameShape seen seen' ∧
      ∀ kind object object', seen = .nested kind object → seen' = .nested kind object' →
        Serialized kind object object' := by
  cases seen with
  | plain value => exact ⟨_, ⟨0, fun _ _ => ⟨.plain, fun _ => rfl⟩⟩, .plain, nofun⟩
  | string bytes => exact ⟨_, ⟨0, fun _ _ => ⟨.string, fun _ => rfl⟩⟩, .string, nofun⟩
  | block bytes => exact ⟨_, ⟨0, fun _ _ => ⟨.block, fun _ => rfl⟩⟩, .block, nofun⟩
  | nested kind object =>
      obtain ⟨object', serialized, depth, ends⟩ := nested kind object rfl
      refine ⟨.nested kind object', ⟨depth, fun fuel le => ?_⟩, .nested, ?_⟩
      · obtain ⟨result, size_eq⟩ := ends fuel le
        exact ⟨.nested serialized.positive result, fun _ => by simp [Seen.behind, size_eq]⟩
      · rintro _ _ _ ⟨⟩ ⟨⟩
        exact serialized

/-- One fuel is enough for all buckets. -/
theorem exists_depth {α β : Type} {related : Nat → α → β → Prop} {items : List α}
    {images : List β}
    (each : List.Forall₂ (fun item image => ∃ depth, ∀ fuel, depth ≤ fuel →
      related fuel item image) items images) :
    ∃ depth, ∀ fuel, depth ≤ fuel → List.Forall₂ (related fuel) items images := by
  induction each with
  | nil => exact ⟨0, fun _ _ => .nil⟩
  | cons first _ ih =>
      obtain ⟨firstDepth, firstHolds⟩ := first
      obtain ⟨restDepth, restHolds⟩ := ih
      refine ⟨max firstDepth restDepth, fun fuel le => ?_⟩
      exact .cons (firstHolds fuel (le_of_max_le_left le)) (restHolds fuel (le_of_max_le_right le))

theorem foldl_becomes {fuel : Nat} {seens seens' : List Seen}
    (becomes : List.Forall₂ (Becomes fuel) seens seens') (offset : Nat) :
    seens.foldl (Seen.behind (serialSize fuel)) offset =
      seens'.foldl (Seen.behind ImObject.size) offset := by
  induction becomes generalizing offset with
  | nil => rfl
  | cons first _ ih => rw [List.foldl_cons, List.foldl_cons, first.2, ih]

/-- Serialising the nested objects of a list of buckets. -/
theorem exists_becomes_all {seens : List Seen}
    (nested : ∀ kind object, Seen.nested kind object ∈ seens →
      ∃ object', Serialized kind object object' ∧ Ends kind object object') :
    ∃ seens', (∃ depth, ∀ fuel, depth ≤ fuel → List.Forall₂ (Becomes fuel) seens seens') ∧
      List.Forall₂ SameShape seens seens' ∧
      ∀ kind object object',
        (Seen.nested kind object, Seen.nested kind object') ∈ seens.zip seens' →
          Serialized kind object object' := by
  obtain ⟨seens', related⟩ := exists_forall₂ fun seen member =>
    @exists_becomes seen fun kind object same => nested kind object (same ▸ member)
  refine ⟨seens', exists_depth (related.imp fun _ _ each => each.1),
    related.imp fun _ _ each => each.2.1, ?_⟩
  intro kind object object' member
  exact ((List.forall₂_iff_zip.mp related).2 member).2.2 kind object object' rfl rfl

end Ending

/-- Serialising an object that can be read ends, and its result is the serialised
object. -/
theorem Formed.serialized {kind : Kind} {object : ImObject Owned} (formed : Formed kind object)
    (small : Small object) :
    ∃ object', Serialized kind object object' ∧ Ends kind object object' := by
  induction formed with
  | @hashtable table seens separated sees children ih =>
      obtain ⟨seens', ⟨depth, becomes⟩, shapes, serialized⟩ := exists_becomes_all
        fun kind object member => ih kind object member (small.hashtable_child sees member)
      obtain ⟨after, done, size_eq, arranged, inuse_eq, keys_eq⟩ := serializeTable_spec separated
        sees ((becomes depth le_rfl).imp fun _ _ each => each.1)
      have sizeAt (fuel : Nat) (le : depth ≤ fuel) :
          serialSize (fuel + 1) (.hashtable table) = (ImObject.hashtable after).size := by
        rw [serialSize, foldl_behind sees, foldl_becomes (becomes fuel le), ← arranged.laid.stop_eq,
          ← arranged.size_eq, ← size_eq]
        rfl
      have bounded : (ImObject.hashtable after).size < 2147483648 :=
        sizeAt depth le_rfl ▸ small (depth + 1)
      have code : toInt32 (hashSize after.numberOfBuckets + after.extra.attachedSize) =
          ((ImObject.hashtable after).size : Int) :=
        toInt32_eq (by omega) (by exact_mod_cast bounded)
      refine ⟨.hashtable after, .hashtable size_eq inuse_eq keys_eq sees arranged bounded shapes
        serialized, depth + 1, ?_⟩
      intro fuel le
      obtain ⟨fuel, rfl⟩ : ∃ smaller, fuel = smaller + 1 := ⟨fuel - 1, by omega⟩
      refine ⟨serializeObject_mono le ?_, sizeAt fuel (by omega)⟩
      rw [serializeObject]
      simp [Owned.content, done, code]
  | @vector vector seens sized separated sees children ih =>
      obtain ⟨seens', ⟨depth, becomes⟩, shapes, serialized⟩ := exists_becomes_all
        fun kind object member => ih kind object member (small.vector_child sees member)
      obtain ⟨after, done, size_eq, inuse_eq, length_eq, arranged⟩ := serializeVector_spec
        separated (sized.length_buckets ▸ sized.inuse_le) sees
        ((becomes depth le_rfl).imp fun _ _ each => each.1)
      have sizeAt (fuel : Nat) (le : depth ≤ fuel) :
          serialSize (fuel + 1) (.vector vector) = (ImObject.vector after).size := by
        rw [serialSize, foldl_behind sees, foldl_becomes (becomes fuel le), ← arranged.laid.stop_eq,
          ← arranged.size_eq, ← size_eq]
        rfl
      have bounded : (ImObject.vector after).size < 2147483648 :=
        sizeAt depth le_rfl ▸ small (depth + 1)
      have code : toInt32 (vectorSize after.numberOfBuckets + after.attached.attachedSize) =
          ((ImObject.vector after).size : Int) :=
        toInt32_eq (by omega) (by exact_mod_cast bounded)
      refine ⟨.vector after, .vector size_eq inuse_eq length_eq sized sees arranged bounded shapes
        serialized, depth + 1, ?_⟩
      intro fuel le
      obtain ⟨fuel, rfl⟩ : ∃ smaller, fuel = smaller + 1 := ⟨fuel - 1, by omega⟩
      refine ⟨serializeObject_mono le ?_, sizeAt fuel (by omega)⟩
      rw [serializeObject]
      simp [Owned.content, done, code]

/-! ## Serialising again -/

theorem SameShape.nested_left {kind : Kind} {object' : ImObject Owned} {seen : Seen}
    (shape : SameShape seen (.nested kind object')) : ∃ object, seen = .nested kind object := by
  cases shape with
  | nested => exact ⟨_, rfl⟩

/-- A nested object of the serialised buckets comes from one of the buckets
before. -/
theorem exists_source {seens seens' : List Seen} (shapes : List.Forall₂ SameShape seens seens')
    {kind : Kind} {object' : ImObject Owned} (member : Seen.nested kind object' ∈ seens') :
    ∃ object, (Seen.nested kind object, Seen.nested kind object') ∈ seens.zip seens' := by
  induction shapes with
  | nil => cases member
  | cons shape _ ih =>
      rcases List.mem_cons.mp member with rfl | later
      · obtain ⟨object, rfl⟩ := shape.nested_left
        exact ⟨object, by simp⟩
      · obtain ⟨object, paired⟩ := ih later
        exact ⟨object, by simp [paired]⟩

/-- From some fuel on, serialising the object changes nothing. -/
def Fixed (kind : Kind) (object : ImObject Owned) : Prop :=
  ∃ depth, ∀ fuel, depth ≤ fuel →
    serializeObject owned fuel kind (.alloc object) =
      some (Owned.alloc object, (object.size : Int))

theorem exists_depth_fixed {seens : List Seen}
    (nested : ∀ kind object, Seen.nested kind object ∈ seens →
      0 < object.size ∧ Fixed kind object) :
    ∃ depth, ∀ fuel, depth ≤ fuel → ∀ seen ∈ seens,
      Serializes (serializeObject owned fuel) seen seen := by
  have each : List.Forall₂ (fun seen seen' => ∃ depth, ∀ fuel, depth ≤ fuel →
      Serializes (serializeObject owned fuel) seen seen') seens seens := by
    refine List.forall₂_same.mpr fun seen member => ?_
    cases seen with
    | plain => exact ⟨0, fun _ _ => .plain⟩
    | string => exact ⟨0, fun _ _ => .string⟩
    | block => exact ⟨0, fun _ _ => .block⟩
    | nested kind object =>
        obtain ⟨positive, depth, fixed⟩ := nested kind object member
        exact ⟨depth, fun fuel le => .nested positive (fixed fuel le)⟩
  obtain ⟨depth, all⟩ := exists_depth each
  exact ⟨depth, fun fuel le => List.forall₂_same.mp (all fuel le)⟩

/-- A serialised object is a fixed point of the serialiser. -/
theorem Serialized.fixed {kind : Kind} {object object' : ImObject Owned}
    (serialized : Serialized kind object object') : Fixed kind object' := by
  induction serialized with
  | @hashtable table after seens seens' _ _ _ _ arranged bounded shapes children ih =>
      obtain ⟨depth, again⟩ := exists_depth_fixed fun kind object member => by
        obtain ⟨source, paired⟩ := exists_source shapes member
        exact ⟨(children kind source object paired).positive, ih kind source object paired⟩
      have code : toInt32 (hashSize after.numberOfBuckets + after.extra.attachedSize) =
          ((ImObject.hashtable after).size : Int) :=
        toInt32_eq (by omega) (by exact_mod_cast bounded)
      refine ⟨depth + 1, fun fuel le => serializeObject_mono le ?_⟩
      rw [serializeObject]
      simp [Owned.content, serializeTable_again arranged (again depth le_rfl), code]
  | @vector vector after seens seens' _ _ _ _ _ arranged bounded shapes children ih =>
      obtain ⟨depth, again⟩ := exists_depth_fixed fun kind object member => by
        obtain ⟨source, paired⟩ := exists_source shapes member
        exact ⟨(children kind source object paired).positive, ih kind source object paired⟩
      have code : toInt32 (vectorSize after.numberOfBuckets + after.attached.attachedSize) =
          ((ImObject.vector after).size : Int) :=
        toInt32_eq (by omega) (by exact_mod_cast bounded)
      refine ⟨depth + 1, fun fuel le => serializeObject_mono le ?_⟩
      rw [serializeObject]
      simp [Owned.content, serializeVector_again arranged (again depth le_rfl), code]

/-- A serialised object can be read. -/
theorem Serialized.formed {kind : Kind} {object object' : ImObject Owned}
    (serialized : Serialized kind object object') : Formed kind object' := by
  induction serialized with
  | hashtable _ _ _ _ arranged _ shapes _ ih =>
      refine .hashtable arranged.separated arranged.sees fun kind object member => ?_
      obtain ⟨source, paired⟩ := exists_source shapes member
      exact ih kind source object paired
  | @vector vector after _ _ size_eq inuse_eq length_eq sized _ arranged _ shapes _ ih =>
      have sizedAfter : ImVector.Sized after := by
        refine ⟨?_, ?_⟩
        · rw [length_eq, size_eq, sized.length_buckets]
        · rw [inuse_eq, size_eq]
          exact sized.inuse_le
      refine .vector sizedAfter arranged.separated arranged.sees fun kind object member => ?_
      obtain ⟨source, paired⟩ := exists_source shapes member
      exact ih kind source object paired

/-! ## The shape of a serialised object -/

/-- Where the object of an attached bucket starts in the attached area. -/
def attachedAt : ImValue Owned → Option Nat
  | .attachedString _ offset | .attachedBlock _ offset | .attachedNested _ offset
  | .attachedVector _ offset => some offset
  | _ => none

/-- The attached area of an object. -/
def attachedOf : ImObject Owned → Attached (ImObject Owned)
  | .hashtable table => table.extra
  | .vector vector => vector.attached
  | _ => Attached.none

/-- The buckets of an object that hold a value. -/
def liveBuckets : ImObject Owned → List (ImVectorBucket Owned)
  | .hashtable table =>
      (commonParts table).filter fun bucket => decide (bucket.value.status = .live)
  | .vector vector => usedBuckets vector
  | _ => []

/-- No object of a live bucket is in a block of its own, the attached objects fill
disjoint parts of the attached area, and nested objects are aligned. -/
structure Compact (object : ImObject Owned) : Prop where
  attached : ∀ bucket ∈ liveBuckets object, ¬ bucket.value.IsExternal
  inside : ∀ bucket ∈ liveBuckets object, ∀ offset, attachedAt bucket.value = some offset →
    offset + bucket.valueLength ≤ (attachedOf object).attachedSize ∧
      ∃ region, (attachedOf object).area offset = some region ∧
        region.size = bucket.valueLength
  disjoint : (liveBuckets object).Pairwise fun first second => ∀ offset offset',
    attachedAt first.value = some offset → attachedAt second.value = some offset' →
      Area.Apart offset first.valueLength offset' second.valueLength
  aligned : ∀ bucket ∈ liveBuckets object, ∀ size offset,
    bucket.value = .attachedNested size offset ∨ bucket.value = .attachedVector size offset →
      offset % 8 = 0

theorem aligned_mod (offset : Nat) : ImSerialize.aligned offset % 8 = 0 := by
  unfold ImSerialize.aligned imAlignOffset
  omega

section Laying

variable {area : Area (ImObject Owned)} {start stop : Nat} {bucket : ImVectorBucket Owned}
variable {seen : Seen}

theorem Laid.not_external (laid : Laid area start bucket seen stop) :
    ¬ bucket.value.IsExternal := by
  cases laid with
  | @plain _ value isPlain => cases value <;> first | exact id | cases isPlain
  | @nested kind => cases kind <;> exact id
  | _ => exact id

theorem Laid.region (laid : Laid area start bucket seen stop) {offset : Nat}
    (attached : attachedAt bucket.value = some offset) :
    start ≤ offset ∧ offset + bucket.valueLength ≤ stop ∧
      ∃ region, area offset = some region ∧ region.size = bucket.valueLength := by
  cases laid with
  | @plain _ value isPlain => cases value <;> cases isPlain <;> cases attached
  | string | block => cases attached
  | attachedString _ found | attachedBlock _ found =>
      cases attached
      exact ⟨le_rfl, le_rfl, _, found, rfl⟩
  | @nested kind object _ found =>
      cases kind <;>
      · cases attached
        exact ⟨aligned_ge start, le_rfl, object, found, rfl⟩

theorem Laid.aligned (laid : Laid area start bucket seen stop) {size offset : Nat}
    (nested : bucket.value = .attachedNested size offset ∨
      bucket.value = .attachedVector size offset) : offset % 8 = 0 := by
  cases laid with
  | @plain _ value isPlain =>
      rcases nested with same | same <;> · subst same; cases isPlain
  | string | block | attachedString | attachedBlock =>
      rcases nested with same | same <;> cases same
  | @nested kind =>
      cases kind <;> rcases nested with same | same <;> cases same <;> exact aligned_mod start

theorem LaidAll.regions {buckets : List (ImVectorBucket Owned)} {seens : List Seen}
    (laid : LaidAll area start buckets seens stop) :
    (∀ bucket ∈ buckets, ¬ bucket.value.IsExternal) ∧
    (∀ bucket ∈ buckets, ∀ offset, attachedAt bucket.value = some offset →
      start ≤ offset ∧ offset + bucket.valueLength ≤ stop ∧
        ∃ region, area offset = some region ∧ region.size = bucket.valueLength) ∧
    (buckets.Pairwise fun first second => ∀ offset offset',
      attachedAt first.value = some offset → attachedAt second.value = some offset' →
        Area.Apart offset first.valueLength offset' second.valueLength) ∧
    ∀ bucket ∈ buckets, ∀ size offset, bucket.value = .attachedNested size offset ∨
      bucket.value = .attachedVector size offset → offset % 8 = 0 := by
  induction laid with
  | nil => simp
  | cons first rest ih =>
      obtain ⟨notExternal, inside, disjoint, aligned⟩ := ih
      simp only [List.forall_mem_cons, List.pairwise_cons]
      refine ⟨⟨first.not_external, notExternal⟩, ⟨?_, ?_⟩, ⟨?_, disjoint⟩,
        ⟨fun _ _ => first.aligned, aligned⟩⟩
      · intro offset attached
        obtain ⟨lower, upper, stored⟩ := first.region attached
        exact ⟨lower, upper.trans rest.le, stored⟩
      · intro other member offset attached
        obtain ⟨lower, upper⟩ := inside other member offset attached
        exact ⟨first.le.trans lower, upper⟩
      · intro other member offset offset' attached attached'
        exact Or.inl
          ((first.region attached).2.1.trans (inside other member offset' attached').1)

end Laying

/-- Any selection of arranged buckets is compact. -/
theorem Arranged.compact {object : ImObject Owned} {buckets : List (ImVectorBucket Owned)}
    {seens : List Seen} (arranged : Arranged (attachedOf object) buckets seens)
    (sublist : (liveBuckets object).Sublist buckets) : Compact object := by
  obtain ⟨notExternal, inside, disjoint, aligned⟩ := arranged.laid.regions
  refine ⟨fun bucket member => notExternal bucket (sublist.subset member), ?_,
    disjoint.sublist sublist, fun bucket member => aligned bucket (sublist.subset member)⟩
  intro bucket member offset attached
  rw [arranged.size_eq]
  exact (inside bucket (sublist.subset member) offset attached).2

theorem Serialized.compact {kind : Kind} {object object' : ImObject Owned}
    (serialized : Serialized kind object object') : Compact object' := by
  cases serialized with
  | @hashtable table after seens seens' _ _ _ _ arranged =>
      have stored : Arranged (attachedOf (.hashtable after)) (commonParts after) seens' := arranged
      exact stored.compact List.filter_sublist
  | @vector vector after seens seens' _ _ _ _ _ arranged =>
      have stored : Arranged (attachedOf (.vector after)) (usedBuckets after) seens' := arranged
      exact stored.compact (List.Sublist.refl _)

end FrameCode.ImSerialize
