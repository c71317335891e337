import FrameCode.BlockHeap
import FrameCode.ImSearch
import FrameCode.ImSerialize

/-!
# Duplicating objects

`im_duplicate_hashtable` and `im_duplicate_vector` over a heap in which an external object is the
address of its block.  A block has a size of its own: the copy of an object lacks the bytes that
the duplication does not allocate, and an access to them has no meaning.

The buckets of a hash table and of a vector differ in the key only, and both functions run the same
steps, so each step is stated once, on the common part of a bucket.
-/

namespace FrameCode.ImDuplicate

open BlockHeap OpenAddressing ImTypes ImHashtable ImVector ImSerialize MachineInt

/-- The block holds the first `capacity` bytes of its content. -/
structure Block where
  content : ImObject Nat
  capacity : Nat

/-! ## Objects -/

def kindOf : ImObject Nat → Option Kind
  | .hashtable _ => some .nested
  | .vector _ => some .vector
  | _ => none

def bucketCount : ImObject Nat → Nat
  | .hashtable table => table.numberOfBuckets
  | .vector vector => vector.numberOfBuckets
  | _ => 0

def attachedOf : ImObject Nat → Attached (ImObject Nat)
  | .hashtable table => table.extra
  | .vector vector => vector.attached
  | _ => Attached.none

/-- Start of the attached area. -/
def attachedBase : ImObject Nat → Nat
  | .hashtable table => hashSize table.numberOfBuckets
  | .vector vector => vectorSize vector.numberOfBuckets
  | _ => 0

/-- The buckets without their keys. -/
def parts : ImObject Nat → List (ImVectorBucket Nat)
  | .hashtable table => table.buckets.map ImHashBucket.toImVectorBucket
  | .vector vector => vector.buckets
  | _ => []

def withParts : ImObject Nat → List (ImVectorBucket Nat) → ImObject Nat
  | .hashtable table, parts =>
      .hashtable { table with
        buckets := List.zipWith (fun bucket part => { bucket with toImVectorBucket := part })
          table.buckets parts }
  | .vector vector, parts => .vector { vector with buckets := parts }
  | object, _ => object

/-- The buckets that a lookup can return.  All buckets of a hash table count: an unused one is
marked. -/
def usedParts : ImObject Nat → List (ImVectorBucket Nat)
  | .vector vector => vector.buckets.take vector.inuse
  | object => parts object

/-- The buckets of a vector behind `inuse`, with whatever was left in them. -/
def unusedParts : ImObject Nat → List (ImVectorBucket Nat)
  | .vector vector => vector.buckets.drop vector.inuse
  | _ => []

/-! ## Duplication -/

/-- The bytes that are allocated and copied: `sizeof(im_hashtable)` does not count a bucket, so
that `number_of_buckets - 1` buckets are one too few. -/
def copySize : ImObject Nat → Nat
  | .hashtable table => hashSize (pred32 table.numberOfBuckets) + table.extra.attachedSize
  | .vector vector => vectorSize (pred32 vector.numberOfBuckets) + vector.attached.attachedSize
  | object => object.size

/-- `calloc` of the value length and `memcpy` of the object size. -/
def copyBytes (valueLength objectSize objectAlloc : Nat) : HeapM Block Nat := do
  let block ← read objectAlloc
  match block.content with
  | .bytes bytes =>
      if objectSize ≤ bytes.length ∧ objectSize ≤ valueLength then
        alloc ⟨.bytes (bytes.take objectSize ++ List.replicate (valueLength - objectSize) 0),
          valueLength⟩
      else stuck
  | _ => stuck

/-- `copy_bucket`, over a given way of duplicating objects: the bucket is made to refer to the new
object.  An attached object is handed on by its offset as if that were its address, which has no
meaning.  Allocations succeed, so that the error exits are not taken. -/
def copyBucket (duplicate : Kind → Nat → HeapM Block Nat) (bucket : ImVectorBucket Nat) :
    HeapM Block (ImVectorBucket Nat) :=
  match bucket.value with
  | .externalString objectSize objectAlloc => do
      let objectAlloc ← copyBytes bucket.valueLength objectSize objectAlloc
      pure { bucket with value := .externalString bucket.valueLength objectAlloc }
  | .externalBlock objectSize objectAlloc => do
      let objectAlloc ← copyBytes bucket.valueLength objectSize objectAlloc
      pure { bucket with value := .externalBlock bucket.valueLength objectAlloc }
  | .externalNested _ objectAlloc => do
      let objectAlloc ← duplicate .nested objectAlloc
      pure { bucket with value := .externalNested bucket.valueLength objectAlloc }
  | .externalVector _ objectAlloc => do
      let objectAlloc ← duplicate .vector objectAlloc
      pure { bucket with value := .externalVector bucket.valueLength objectAlloc }
  | .attachedNested .. | .attachedVector .. => stuck
  | _ => pure bucket

/-- Write a bucket of the object in a block. -/
def storeBucket (address i : Nat) (bucket : ImVectorBucket Nat) : HeapM Block Unit := do
  let block ← read address
  write address
    { block with content := withParts block.content ((parts block.content).set i bucket) }

/-- The loop over the buckets from `i` on, in the block of the original. -/
def copyBuckets (duplicate : Kind → Nat → HeapM Block Nat) (address : Nat) :
    Nat → Nat → HeapM Block Unit
  | 0, _ => pure ()
  | count + 1, i => do
      let block ← read address
      match (parts block.content)[i]? with
      | none => stuck
      | some bucket => do
          copyBucket duplicate bucket >>= storeBucket address i
          copyBuckets duplicate address count (i + 1)

/-- `im_duplicate_hashtable_with_info` and `im_duplicate_vector_with_info` for external objects.
The fuel bounds the nesting. -/
def imDuplicateWithInfo : Nat → Kind → Nat → HeapM Block Nat
  | 0, _, _ => stuck
  | fuel + 1, kind, address => do
      let block ← read address
      if kindOf block.content = some kind ∧ copySize block.content ≤ block.capacity then
        let copy ← alloc ⟨block.content, copySize block.content⟩
        copyBuckets (imDuplicateWithInfo fuel) address (bucketCount block.content) 0
        pure copy
      else stuck

def imDuplicateHashtable (fuel hashtable : Nat) : HeapM Block Nat :=
  imDuplicateWithInfo fuel .nested hashtable

def imDuplicateVector (fuel vector : Nat) : HeapM Block Nat :=
  imDuplicateWithInfo fuel .vector vector

/-! ## Lookups -/

/-- A lookup goes by key in a hash table and by position in a vector. -/
inductive Hop
  | key (key : List UInt8)
  | position (position : Int)

/-- The start and the number of bytes of an access to a block. -/
abbrev Access := Nat × Nat

def Inside (capacity : Nat) (access : Access) : Prop :=
  access.2 = 0 ∨ access.1 + access.2 ≤ capacity

instance (capacity : Nat) (access : Access) : Decidable (Inside capacity access) :=
  inferInstanceAs (Decidable (_ ∨ _))

/-- The key and the info of a hash bucket, which the search reads. -/
def keyAccess (position : Nat) : Access := (hashSize position, 104)

def hashBucketAccess (position : Nat) : Access := (hashSize position, 128)

def vectorBucketAccess (position : Nat) : Access := (vectorSize position, 32)

/-- The positions that `im_find_element` examines. -/
def searched (table : ImHashtable Nat) (key : List UInt8) : Option (List Int) :=
  examinedPositions table key table.numberOfBuckets
    ((imHashcode key % table.numberOfBuckets : Nat) : Int) 0

/-- The accesses of a lookup and the bucket that it finds; `none` has no meaning. -/
def lookup : ImObject Nat → Hop → Option (List Access × Option (ImVectorBucket Nat))
  | .hashtable table, .key key =>
      match searched table key, imRetrieveElementByKey table key with
      | some positions, some none => some (positions.map fun p => keyAccess p.toNat, none)
      | some positions, some (some bucket) =>
          some ((positions.map fun p => keyAccess p.toNat) ++
            (positions.getLast?.toList.map fun p => hashBucketAccess p.toNat),
            some bucket.toImVectorBucket)
      | _, _ => none
  | .hashtable table, .position position =>
      if 0 ≤ position ∧ position < table.numberOfBuckets then
        match imRetrieveElement table position.toNat with
        | none => some ([keyAccess position.toNat], none)
        | some bucket => some ([hashBucketAccess position.toNat], some bucket.toImVectorBucket)
      else none
  | .vector vector, .position position =>
      if 0 ≤ position ∧ position < vector.inuse then
        some ([vectorBucketAccess position.toNat], imGetElement vector position)
      else some ([], none)
  | _, _ => none

inductive Answer
  | undefined
  | missing
  | plain (value : ImValue Nat)
  | string (bytes : List UInt8)
  | block (bytes : List UInt8)
  | object (kind : Kind)

def bytesOf (length : Nat) (answer : List UInt8 → Answer) : Option (ImObject Nat) → Answer
  | some (.bytes bytes) => if length ≤ bytes.length then answer (bytes.take length) else .undefined
  | _ => .undefined

/-- Bytes of the attached area, when they are in the block. -/
def attachedBytes (object : ImObject Nat) (capacity offset length : Nat)
    (answer : List UInt8 → Answer) : Answer :=
  if Inside capacity (attachedBase object + offset, length) then
    bytesOf length answer ((attachedOf object).area offset)
  else .undefined

/-- The answer of a bucket that holds no object. -/
def leafAnswer (h : Heap Block) (object : ImObject Nat) (capacity : Nat)
    (bucket : ImVectorBucket Nat) : Answer :=
  match bucket.value with
  | .string bytes => .string bytes
  | .block bytes => .block bytes
  | .externalString _ address =>
      bytesOf bucket.valueLength .string ((h.blocks address).map Block.content)
  | .externalBlock _ address =>
      bytesOf bucket.valueLength .block ((h.blocks address).map Block.content)
  | .attachedString _ offset =>
      attachedBytes object capacity offset bucket.valueLength .string
  | .attachedBlock _ offset =>
      attachedBytes object capacity offset bucket.valueLength .block
  | value => .plain value

/-- The answer to a path of lookups that starts in an object of which the first `capacity` bytes
can be accessed. -/
def answer (h : Heap Block) : List Hop → ImObject Nat → Nat → Answer
  | [], object, _ => ((kindOf object).map .object).getD .undefined
  | hop :: rest, object, capacity =>
      match lookup object hop with
      | none => .undefined
      | some (accesses, found) =>
          if ∀ access ∈ accesses, Inside capacity access then
            match found with
            | none => .missing
            | some bucket =>
                match bucket.value with
                | .externalNested _ address | .externalVector _ address =>
                    match h.blocks address with
                    | none => .undefined
                    | some block => answer h rest block.content block.capacity
                | .attachedNested _ offset | .attachedVector _ offset =>
                    match (attachedOf object).area offset with
                    | none => .undefined
                    | some inner =>
                        answer h rest inner (capacity - (attachedBase object + offset))
                | _ => if rest.isEmpty then leafAnswer h object capacity bucket else .missing
          else .undefined

/-- The answer of the object in a block. -/
def answerAt (h : Heap Block) (address : Nat) (path : List Hop) : Answer :=
  match h.blocks address with
  | none => .undefined
  | some block => answer h path block.content block.capacity

/-! ## Calls on a block -/

/-- The calls that look into an object or change it.  A serialisation comes with the lengths to
which the nested objects are serialised. -/
inductive Call
  | lookup (hop : Hop)
  | insert (bucket : ImHashBucket Nat)
  | delete (key : List UInt8)
  | add (bucket : ImVectorBucket Nat)
  | set (position : Int) (bucket : ImVectorBucket Nat)
  | del (position : Int)
  | empty
  | destroy
  | serialize (lengths : Nat → Nat)

/-- Callers put no attached value into a bucket. -/
def NotAttached : ImValue Nat → Prop
  | .attachedString .. | .attachedBlock .. | .attachedNested .. | .attachedVector .. => False
  | _ => True

def Call.Given : Call → Prop
  | .insert bucket => NotAttached bucket.value
  | .add bucket | .set _ bucket => NotAttached bucket.value
  | _ => True

/-- The attached bytes of a bucket. -/
def attachedAccesses (object : ImObject Nat) (bucket : ImVectorBucket Nat) : List Access :=
  match bucket.value with
  | .attachedString _ offset | .attachedBlock _ offset | .attachedNested _ offset
  | .attachedVector _ offset => [(attachedBase object + offset, bucket.valueLength)]
  | _ => []

/-- The bytes that `free_bucket` visits outside of the bucket: those of an attached object. -/
def freeAccesses (object : ImObject Nat) (bucket : ImVectorBucket Nat) : List Access :=
  match bucket.value with
  | .attachedNested .. | .attachedVector .. => attachedAccesses object bucket
  | _ => []

/-- The length that a bucket takes in the attached area when its object is brought there, and
whether it is a nested object. -/
def attaching (lengths : Nat → Nat) (i : Nat) (bucket : ImVectorBucket Nat) : Option (Nat × Bool) :=
  match bucket.value with
  | .externalString .. | .externalBlock .. | .attachedString .. | .attachedBlock .. =>
      some (bucket.valueLength, false)
  | .externalNested .. | .externalVector .. | .attachedNested .. | .attachedVector .. =>
      some (lengths i, true)
  | _ => none

/-- The writes of `attach_bucket` to the attached area, from bucket `i` on, up to the first
`realloc`: from then on the object is in a new block. -/
def attachAccesses (growth : Growth) (base : Nat) (lengths : Nat → Nat) :
    Nat → Attached (ImObject Nat) → List (ImVectorBucket Nat) → List Access
  | _, _, [] => []
  | i, attached, bucket :: rest =>
      match attaching lengths i bucket with
      | none => attachAccesses growth base lengths (i + 1) attached rest
      | some (length, nested) =>
          let attached := if nested then align attached else attached
          if growth.due (growSize attached.attachedSize (attached.attachedOffset + length))
              attached then []
          else if nested = false ∧ length ≤ sizeofImValue then
            attachAccesses growth base lengths (i + 1) attached rest
          else (base + attached.attachedOffset, length) ::
            attachAccesses growth base lengths (i + 1)
              { attached with attachedOffset := attached.attachedOffset + length } rest

/-- The walk over all buckets of a hash table: the value of a bucket is read when there is one. -/
def walkAccesses (table : ImHashtable Nat) : List Access :=
  table.buckets.zipIdx.map fun (bucket, i) =>
    if bucket.value.status = .live then hashBucketAccess i else keyAccess i

/-- The used buckets of a vector. -/
def usedAccess (vector : ImVector Nat) : Access := (vectorSize 0, 32 * vector.inuse)

/-- The accesses of a call to the block of a hash table, and the table after it; `none` when the
block is freed or replaced by a new one. -/
def performHashtable (table : ImHashtable Nat) : Call → List Access × Option (ImHashtable Nat)
  | .insert bucket =>
      if bucket.value.status = .live then
        if pred32 table.empty ≤ table.numberOfBuckets / 2 then
          (walkAccesses table ++
            [(hashSize table.numberOfBuckets, table.extra.attachedOffset)], none)
        else
          match searched table bucket.key, table.place (imOps Nat) bucket with
          | some positions, some (after, placed) =>
              ((positions.map fun p => keyAccess p.toNat) ++ placed.toList.map hashBucketAccess,
                some after)
          | _, _ => ([], none)
      else ([], some table)
  | .delete key =>
      match searched table key, imFindElement table key with
      | some positions, some position =>
          ((positions.map fun p => keyAccess p.toNat) ++
            freeAccesses (.hashtable table)
              (table.slot (imOps Nat) position).toImVectorBucket,
            some (imDeleteElement table position).1)
      | _, _ => ([], none)
  | .empty =>
      (walkAccesses table ++ (parts (.hashtable table)).flatMap (freeAccesses (.hashtable table)),
        some (imEmptyHashtable table))
  | .destroy =>
      (walkAccesses table ++ (parts (.hashtable table)).flatMap (freeAccesses (.hashtable table)),
        none)
  | .serialize lengths =>
      ((hashSize table.numberOfBuckets, table.extra.attachedOffset) :: walkAccesses table ++
        attachAccesses .hashtable (hashSize table.numberOfBuckets) lengths 0
          { table.extra with attachedOffset := 0 } (parts (.hashtable table)), none)
  | _ => ([], none)

/-- The same for the block of a vector. -/
def performVector (vector : ImVector Nat) : Call → List Access × Option (ImVector Nat)
  | .add bucket =>
      if bucket.value.status = .live then
        if vector.inuse < vector.numberOfBuckets then
          match imAddElement vector bucket with
          | some (after, _) => ([vectorBucketAccess vector.inuse], some after)
          | none => ([], none)
        else
          match resizeWith (vector.numberOfBuckets + 1) vector with
          | some (_, true) => ([(vectorSize 0, 32 * vector.numberOfBuckets),
              (vectorSize vector.numberOfBuckets, vector.attached.attachedOffset)], none)
          | _ => ([], some vector)
      else ([], some vector)
  | .set position bucket =>
      if bucket.value.status = .live then
        match imGetElement vector position with
        | some old => (vectorBucketAccess position.toNat :: freeAccesses (.vector vector) old,
            some (imSetElement vector position bucket).1)
        | none => ([], some vector)
      else ([], some vector)
  | .del position =>
      match imGetElement vector position with
      | some old => ((vectorSize position.toNat, 32 * (vector.inuse - position.toNat)) ::
            freeAccesses (.vector vector) old, some (imDelElement vector position).1)
      | none => ([], some vector)
  | .empty =>
      (usedAccess vector :: (usedParts (.vector vector)).flatMap (freeAccesses (.vector vector)),
        some (imEmptyVector vector))
  | .destroy =>
      (usedAccess vector :: (usedParts (.vector vector)).flatMap (freeAccesses (.vector vector)),
        none)
  | .serialize lengths =>
      ((vectorSize vector.numberOfBuckets, vector.attached.attachedOffset) :: usedAccess vector ::
        attachAccesses .vector (vectorSize vector.numberOfBuckets) lengths 0
          { vector.attached with attachedOffset := 0 } (usedParts (.vector vector)), none)
  | _ => ([], none)

/-- The accesses of a call to the block of an object, and the object in this block after it. -/
def perform : ImObject Nat → Call → List Access × Option (ImObject Nat)
  | object, .lookup hop =>
      match lookup object hop with
      | some (accesses, found) =>
          (accesses ++ found.toList.flatMap (attachedAccesses object), some object)
      | none => ([], none)
  | .hashtable table, call =>
      ((performHashtable table call).1, (performHashtable table call).2.map .hashtable)
  | .vector vector, call =>
      ((performVector vector call).1, (performVector vector call).2.map .vector)
  | _, _ => ([], none)

/-- The accesses of calls one after the other, as long as the object stays in its block. -/
def accesses : ImObject Nat → List Call → List Access
  | _, [] => []
  | object, call :: rest =>
      (perform object call).1 ++
        match (perform object call).2 with
        | some after => accesses after rest
        | none => []

/-- No run of calls leaves the block. -/
def Contained (block : Block) : Prop :=
  ∀ calls, (∀ call ∈ calls, call.Given) →
    ∀ access ∈ accesses block.content calls, Inside block.capacity access

/-! ## What a duplication is for -/

/-- The sort of the block that a bucket refers to. -/
inductive Referent
  | bytes (length : Nat)
  | object (kind : Kind)
deriving DecidableEq

def reference (bucket : ImVectorBucket Nat) : Option (Referent × Nat) :=
  match bucket.value with
  | .externalString _ address | .externalBlock _ address =>
      some (.bytes bucket.valueLength, address)
  | .externalNested _ address => some (.object .nested, address)
  | .externalVector _ address => some (.object .vector, address)
  | _ => none

/-- The blocks that an object leads to through the given buckets of every object, its own block
included. -/
inductive Leads (buckets : ImObject Nat → List (ImVectorBucket Nat)) (h : Heap Block) :
    Nat → Nat → Prop
  | self {address : Nat} : Leads buckets h address address
  | step {address x : Nat} {block : Block} {referent : Referent × Nat}
      (found : h.blocks address = some block)
      (refers : referent ∈ (buckets block.content).filterMap reference)
      (leads : Leads buckets h referent.2 x) : Leads buckets h address x

/-- Whatever is done to one object and to the blocks it refers to stays in its blocks and shows in
no answer of the other. -/
structure Independent (h : Heap Block) (one other : Nat) : Prop where
  contained : ∀ x block, Leads usedParts h one x → h.blocks x = some block → Contained block
  undisturbed : ∀ later : Heap Block,
    (∀ x < h.next, ¬ Leads parts h one x → later.blocks x = h.blocks x) →
    ∀ path, answerAt later other path = answerAt h other path

/-- The duplication returns an object with the answers that the original had and still has, and the
two are independent. -/
def DuplicatesFaithfully (h : Heap Block) (kind : Kind) (address : Nat) : Prop :=
  ∃ fuel copy h', imDuplicateWithInfo fuel kind address h = some (copy, h') ∧
    (∀ path, answerAt h' copy path = answerAt h address path) ∧
    (∀ path, answerAt h' address path = answerAt h address path) ∧
    Independent h' address copy ∧ Independent h' copy address

end FrameCode.ImDuplicate
