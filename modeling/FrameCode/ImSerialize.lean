import FrameCode.ImHashtable
import FrameCode.ImVector

/-!
# Serialisation

The two mutually recursive serialisers of `im_hashtable.c` and `im_vector.c`.
They walk over the buckets of an object, serialise the nested objects first and
copy every object that a bucket refers to behind the buckets.  The buckets of a
hash table and of a vector differ in the key only, so both serialisers run the
same steps on the common part of a bucket.

The code is written over a `Memory` of blocks.  A step that reads or writes
outside of its block is `stuck`.
-/

namespace FrameCode.ImSerialize

open OpenAddressing RegionMemory ImTypes MachineInt

variable {ε : Type} {m : Type → Type}

/-- The calls by which an operation on one block uses the blocks of other
objects.  Destroying a block also destroys the blocks its buckets own; an
attached object has no block of its own and only releases those. -/
structure Memory (m : Type → Type) (ε : Type) where
  stuck : {α : Type} → m α
  read : ε → m (ImObject ε)
  alloc : ImObject ε → m ε
  realloc : ε → ImObject ε → m ε
  destroy : ε → m Unit
  release : ImObject ε → m Unit

def Memory.lift [Monad m] (memory : Memory m ε) {α : Type} : Option α → m α
  | some value => pure value
  | none => memory.stuck

/-- Blocks with a single owner: a block is its contents. -/
def owned : Memory Option Owned where
  stuck := none
  read object := some object.content
  alloc content := some (.alloc content)
  realloc _ content := some (.alloc content)
  destroy _ := some ()
  release _ := some ()

/-! ## The attached area -/

/-- `im_align_offset`. -/
def imAlignOffset (offset : Nat) : Nat := (8 - offset % 8) % 8

/-- The loop `while(value_length > attached_size - attached_offset)` that adds
whole pages. -/
def growSize (attachedSize needed : Nat) : Nat :=
  attachedSize + 8192 * ((needed - attachedSize + 8191) / 8192)

/-- When the two serialisers reallocate: a hash table when the size has grown, a
vector whenever the size exceeds the offset. -/
inductive Growth
  | hashtable
  | vector

def Growth.due : Growth → Nat → Attached (ImObject ε) → Prop
  | .hashtable, size, attached => attached.attachedSize < size
  | .vector, size, attached => attached.attachedOffset < size

instance (growth : Growth) (size : Nat) (attached : Attached (ImObject ε)) :
    Decidable (growth.due size attached) := by
  cases growth <;> exact Nat.decLt _ _

def reserve (growth : Growth) (attached : Attached (ImObject ε)) (length : Nat) :
    Attached (ImObject ε) :=
  if growth.due (growSize attached.attachedSize (attached.attachedOffset + length)) attached then
    { attached with
      attachedSize := growSize attached.attachedSize (attached.attachedOffset + length) }
  else attached

def align (attached : Attached (ImObject ε)) : Attached (ImObject ε) :=
  { attached with
    attachedOffset := attached.attachedOffset + imAlignOffset attached.attachedOffset }

/-- Read an object from the saved copy of the attached area. -/
def fetch (buffer : Attached (ImObject ε)) (offset length : Nat) : Option (ImObject ε) :=
  Area.load ImObject.size buffer.area offset length

/-- Copy an object to the end of the attached area. -/
def append (form : Nat → Nat → ImValue ε) (attached : Attached (ImObject ε))
    (bucket : ImVectorBucket ε) (content : ImObject ε) :
    Option (Attached (ImObject ε) × ImVectorBucket ε) :=
  match content.copy bucket.valueLength with
  | none => none
  | some region =>
      if attached.attachedOffset + bucket.valueLength ≤ attached.attachedSize then
        some ({ attached with
            attachedOffset := attached.attachedOffset + bucket.valueLength
            area := Area.store ImObject.size attached.area attached.attachedOffset region },
          { bucket with value := form bucket.valueLength attached.attachedOffset })
      else none

/-- The bytes of a string or a block go into the bucket when they fit there. -/
def attachBytes (inlined : List UInt8 → ImValue ε) (form : Nat → Nat → ImValue ε)
    (attached : Attached (ImObject ε)) (bucket : ImVectorBucket ε) (content : ImObject ε) :
    Option (Attached (ImObject ε) × ImVectorBucket ε) :=
  if bucket.valueLength ≤ sizeofImValue then
    match content with
    | .bytes bytes =>
        if bucket.valueLength ≤ bytes.length then
          some (attached, { bucket with value := inlined (bytes.take bucket.valueLength) })
        else none
    | _ => none
  else append form attached bucket content

section Buckets

variable [Monad m] (memory : Memory m ε) (growth : Growth)

/-- `attach_bucket`: bring every object of a bucket behind the buckets. -/
def attachBucket (buffer attached : Attached (ImObject ε)) (bucket : ImVectorBucket ε) :
    m (Attached (ImObject ε) × ImVectorBucket ε) :=
  match bucket.value with
  | .empty | .deleted | .num .. | .string _ | .block _ => pure (attached, bucket)
  | .externalString _ object => do
      let content ← memory.read object
      let result ← memory.lift (attachBytes .string .attachedString
        (reserve growth attached bucket.valueLength) bucket content)
      memory.destroy object
      pure result
  | .externalBlock _ object => do
      let content ← memory.read object
      let result ← memory.lift (attachBytes .block .attachedBlock
        (reserve growth attached bucket.valueLength) bucket content)
      memory.destroy object
      pure result
  | .externalNested _ object => do
      let content ← memory.read object
      let result ← memory.lift (append .attachedNested
        (reserve growth (align attached) bucket.valueLength) bucket content)
      memory.destroy object
      pure result
  | .externalVector _ object => do
      let content ← memory.read object
      let result ← memory.lift (append .attachedVector
        (reserve growth (align attached) bucket.valueLength) bucket content)
      memory.destroy object
      pure result
  | .attachedString _ offset => do
      let content ← memory.lift (fetch buffer offset bucket.valueLength)
      memory.lift (attachBytes .string .attachedString
        (reserve growth attached bucket.valueLength) bucket content)
  | .attachedBlock _ offset => do
      let content ← memory.lift (fetch buffer offset bucket.valueLength)
      memory.lift (attachBytes .block .attachedBlock
        (reserve growth attached bucket.valueLength) bucket content)
  | .attachedNested .. | .attachedVector .. =>
      pure (reserve growth attached bucket.valueLength, bucket)

/-- The two kinds of nested objects. -/
inductive Kind
  | nested
  | vector
deriving DecidableEq, Repr

/-- A nested object that is attached moves to a block of its own. -/
def detachBucket (buffer : Attached (ImObject ε)) (bucket : ImVectorBucket ε) :
    m (ImVectorBucket ε) :=
  match bucket.value with
  | .attachedNested _ offset => do
      let content ← memory.lift (fetch buffer offset bucket.valueLength)
      let object ← memory.alloc content
      pure { bucket with value := .externalNested bucket.valueLength object }
  | .attachedVector _ offset => do
      let content ← memory.lift (fetch buffer offset bucket.valueLength)
      let object ← memory.alloc content
      pure { bucket with value := .externalVector bucket.valueLength object }
  | _ => pure bucket

/-- The outcome of serialising the nested object of a bucket, as the bucket
records it; the flag is `false` when the length does not fit. -/
def recordLength (bucket : ImVectorBucket ε) (value : ImValue ε) (length : Int) :
    ImVectorBucket ε × Bool :=
  if length < 0 then ({ bucket with value := value }, false)
  else ({ bucket with valueLength := length.toNat, value := value }, true)

/-- `serialize_bucket` over a given serialiser of nested objects. -/
def serializeBucket (serialize : Kind → ε → m (ε × Int)) (buffer : Attached (ImObject ε))
    (bucket : ImVectorBucket ε) : m (ImVectorBucket ε × Bool) := do
  let bucket ← detachBucket memory buffer bucket
  match bucket.value with
  | .externalNested size object => do
      let result ← serialize .nested object
      pure (recordLength bucket (.externalNested size result.1) result.2)
  | .externalVector size object => do
      let result ← serialize .vector object
      pure (recordLength bucket (.externalVector size result.1) result.2)
  | _ => pure (bucket, true)

/-- The loop over the buckets.  It stops at the first bucket that fails; `view`
and `put` give the common part of a bucket. -/
def serializeBuckets {β : Type} (view : β → ImVectorBucket ε) (put : β → ImVectorBucket ε → β)
    (serialize : Kind → ε → m (ε × Int)) (buffer : Attached (ImObject ε)) :
    Attached (ImObject ε) → List β → m (Attached (ImObject ε) × List β × Bool)
  | attached, [] => pure (attached, [], true)
  | attached, bucket :: rest => do
      let serialized ← serializeBucket memory serialize buffer (view bucket)
      if serialized.2 then
        let placed ← attachBucket memory growth buffer attached serialized.1
        let others ← serializeBuckets view put serialize buffer placed.1 rest
        pure (others.1, put bucket placed.2 :: others.2.1, others.2.2)
      else pure (attached, put bucket serialized.1 :: rest, false)

end Buckets

/-- The used part of the attached area, as it is saved before the loop. -/
def savedBuffer (attached : Attached (ImObject ε)) : Attached (ImObject ε) := attached.carry

/-- Give back what the attached area does not use. -/
def shrink (attached : Attached (ImObject ε)) : Attached (ImObject ε) := attached.carry

section Objects

variable [Monad m] (memory : Memory m ε)

/-- `im_serialize_hashtable` over a given serialiser of nested objects. -/
def serializeTable (serialize : Kind → ε → m (ε × Int)) (table : ImHashtable ε) :
    m (ImHashtable ε × Int) := do
  let walked ← serializeBuckets memory .hashtable ImHashBucket.toImVectorBucket
    (fun bucket common => { bucket with toImVectorBucket := common })
    serialize (savedBuffer table.extra) { table.extra with attachedOffset := 0 } table.buckets
  if walked.2.2 then
    let table := { table with extra := shrink walked.1, buckets := walked.2.1 }
    pure (table, toInt32 (hashSize table.numberOfBuckets + table.extra.attachedSize))
  else pure ({ table with extra := walked.1, buckets := walked.2.1 }, -1)

/-- `im_serialize_vector`: only the buckets in use are visited. -/
def serializeVector (serialize : Kind → ε → m (ε × Int)) (vector : ImVector ε) :
    m (ImVector ε × Int) := do
  let walked ← serializeBuckets memory .vector id (fun _ bucket => bucket)
    serialize (savedBuffer vector.attached) { vector.attached with attachedOffset := 0 }
    (vector.buckets.take vector.inuse)
  let buckets := walked.2.1 ++ vector.buckets.drop vector.inuse
  if walked.2.2 then
    let vector := { vector with attached := shrink walked.1, buckets := buckets }
    pure (vector, toInt32 (vectorSize vector.numberOfBuckets + vector.attached.attachedSize))
  else pure ({ vector with attached := walked.1, buckets := buckets }, -1)

/-- The serialiser of the block of a nested object.  The fuel bounds the depth
of the nesting. -/
def serializeObject : Nat → Kind → ε → m (ε × Int)
  | 0, _, _ => memory.stuck
  | fuel + 1, kind, object => do
      match kind, ← memory.read object with
      | .nested, .hashtable table => do
          let result ← serializeTable memory (serializeObject fuel) table
          let object ← memory.realloc object (.hashtable result.1)
          pure (object, result.2)
      | .vector, .vector vector => do
          let result ← serializeVector memory (serializeObject fuel) vector
          let object ← memory.realloc object (.vector result.1)
          pure (object, result.2)
      | _, _ => memory.stuck

end Objects

def imSerializeHashtable (fuel : Nat) (table : ImHashtable Owned) :
    Option (ImHashtable Owned × Int) :=
  serializeTable owned (serializeObject owned fuel) table

def imSerializeVector (fuel : Nat) (vector : ImVector Owned) :
    Option (ImVector Owned × Int) :=
  serializeVector owned (serializeObject owned fuel) vector

/-! ## The steps on owned blocks -/

section Owned

@[simp]
theorem owned_lift {α : Type} (value : Option α) : owned.lift value = value := by
  cases value <;> rfl

@[simp]
theorem owned_read (object : Owned) : owned.read object = some object.content := rfl

@[simp]
theorem owned_alloc (content : ImObject Owned) : owned.alloc content = some (.alloc content) :=
  rfl

@[simp]
theorem owned_realloc (object : Owned) (content : ImObject Owned) :
    owned.realloc object content = some (.alloc content) := rfl

@[simp]
theorem owned_destroy (object : Owned) : owned.destroy object = some () := rfl

@[simp]
theorem owned_release (content : ImObject Owned) : owned.release content = some () := rfl

variable (growth : Growth) (buffer attached : Attached (ImObject Owned))

/-- On owned blocks, attaching a bucket only depends on the object that the
bucket refers to. -/
theorem attachBucket_owned (bucket : ImVectorBucket Owned) :
    attachBucket owned growth buffer attached bucket =
      match bucket.value with
      | .empty | .deleted | .num .. | .string _ | .block _ => some (attached, bucket)
      | .externalString _ object =>
          attachBytes .string .attachedString (reserve growth attached bucket.valueLength)
            bucket object.content
      | .externalBlock _ object =>
          attachBytes .block .attachedBlock (reserve growth attached bucket.valueLength)
            bucket object.content
      | .externalNested _ object =>
          append .attachedNested (reserve growth (align attached) bucket.valueLength)
            bucket object.content
      | .externalVector _ object =>
          append .attachedVector (reserve growth (align attached) bucket.valueLength)
            bucket object.content
      | .attachedString _ offset =>
          (fetch buffer offset bucket.valueLength).bind
            (attachBytes .string .attachedString (reserve growth attached bucket.valueLength)
              bucket)
      | .attachedBlock _ offset =>
          (fetch buffer offset bucket.valueLength).bind
            (attachBytes .block .attachedBlock (reserve growth attached bucket.valueLength)
              bucket)
      | .attachedNested .. | .attachedVector .. =>
          some (reserve growth attached bucket.valueLength, bucket) := by
  unfold attachBucket
  cases bucket.value <;> simp

/-- On owned blocks, serialising a bucket only depends on its nested object. -/
theorem serializeBucket_owned (serialize : Kind → Owned → Option (Owned × Int))
    (bucket : ImVectorBucket Owned) :
    serializeBucket owned serialize buffer bucket =
      match bucket.value with
      | .externalNested size object =>
          (serialize .nested object).map fun result =>
            recordLength bucket (.externalNested size result.1) result.2
      | .externalVector size object =>
          (serialize .vector object).map fun result =>
            recordLength bucket (.externalVector size result.1) result.2
      | .attachedNested _ offset =>
          (fetch buffer offset bucket.valueLength).bind fun content =>
            (serialize .nested (.alloc content)).map fun result =>
              recordLength bucket (.externalNested bucket.valueLength result.1) result.2
      | .attachedVector _ offset =>
          (fetch buffer offset bucket.valueLength).bind fun content =>
            (serialize .vector (.alloc content)).map fun result =>
              recordLength bucket (.externalVector bucket.valueLength result.1) result.2
      | _ => some (bucket, true) := by
  obtain ⟨length, value⟩ := bucket
  cases value <;>
    simp [serializeBucket, detachBucket, recordLength, Option.map_eq_bind, Option.bind_assoc]

end Owned

end FrameCode.ImSerialize
