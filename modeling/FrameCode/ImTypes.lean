import FrameCode.OpenAddressing
import FrameCode.RegionMemory
import Mathlib.Data.List.TakeWhile

/-!
# Values, buckets and objects of the in-memory dictionary

The types of `im_types.h`, `im_hashtable.h` and `im_vector.h` on x86-64.  A
bucket carries its `info` tag and its value union together: each tag is a
constructor with the union member the code uses under it.  The type parameter
`ε` is what stands for a `malloc`ed object: the pointer of a heap, or the object
itself when every object has exactly one owner (`Owned`).

The attached area behind the buckets of a serialised object is an `Area` of
whole objects, addressed by their offsets.
-/

namespace FrameCode.ImTypes

open OpenAddressing RegionMemory

/-! ## C strings -/

/-- The bytes a bounded string function sees: up to the first NUL, at most
`limit` of them. -/
def cString (limit : Nat) (bytes : List UInt8) : List UInt8 :=
  (bytes.take limit).takeWhile fun byte => byte != 0

/-- `strncpy` into a fresh buffer: the string, padded with NULs to `limit`. -/
def strncpy (limit : Nat) (bytes : List UInt8) : List UInt8 :=
  cString limit bytes ++ List.replicate (limit - (cString limit bytes).length) 0

/-- `KEY_MAX_LENGTH`. -/
def keyMaxLength : Nat := 102

theorem cString_length_le (limit : Nat) (bytes : List UInt8) :
    (cString limit bytes).length ≤ limit := by
  have kept := (List.takeWhile_sublist (fun byte : UInt8 => byte != 0)
    (l := bytes.take limit)).length_le
  rw [List.length_take] at kept
  unfold cString
  omega

theorem strncpy_length (limit : Nat) (bytes : List UInt8) :
    (strncpy limit bytes).length = limit := by
  have := cString_length_le limit bytes
  simp [strncpy]
  omega

theorem cString_ne_zero {limit : Nat} {bytes : List UInt8} {byte : UInt8}
    (member : byte ∈ cString limit bytes) : byte ≠ 0 := by
  simpa using List.mem_takeWhile_imp member

/-- A copied key reads back as the bytes it was copied from, whatever follows
it in the buffer. -/
@[simp] theorem cString_strncpy (limit : Nat) (bytes rest : List UInt8) :
    cString limit (strncpy limit bytes ++ rest) = cString limit bytes := by
  have taken : (strncpy limit bytes ++ rest).take limit = strncpy limit bytes := by
    rw [List.take_append_of_le_length (by rw [strncpy_length]),
      List.take_of_length_le (by rw [strncpy_length])]
  have allNonzero : ∀ byte ∈ cString limit bytes, (byte != 0) = true := fun byte member => by
    simpa using cString_ne_zero member
  conv_lhs => unfold cString
  rw [taken, strncpy, List.takeWhile_append_of_pos allNonzero, List.takeWhile_replicate]
  simp

/-! ## Values -/

/-- The numeric bucket types. -/
inductive NumType
  | short | int | long | longlong
  | ushort | uint | ulong | ulonglong
  | float | double | longdouble
deriving DecidableEq, Repr

/-- Width of the stored representation; a `long double` has 80 value bits. -/
def NumType.bits : NumType → Nat
  | .short | .ushort => 16
  | .int | .uint | .float => 32
  | .long | .longlong | .ulong | .ulonglong | .double => 64
  | .longdouble => 80

/-- `sizeof` of the numeric type. -/
def NumType.sizeof : NumType → Nat
  | .short | .ushort => 2
  | .int | .uint | .float => 4
  | .long | .longlong | .ulong | .ulonglong | .double => 8
  | .longdouble => 16

/-- The `info` tag of a bucket with the member of the union `im_value` that
belongs to it. -/
inductive ImValue (ε : Type)
  | empty
  | deleted
  | num (type : NumType) (value : BitVec type.bits)
  | string (stringValue : List UInt8)
  | block (blockValue : List UInt8)
  | externalString (objectSize : Nat) (objectAlloc : ε)
  | externalBlock (objectSize : Nat) (objectAlloc : ε)
  | externalNested (objectSize : Nat) (objectAlloc : ε)
  | externalVector (objectSize : Nat) (objectAlloc : ε)
  | attachedString (objectSize objectOffset : Nat)
  | attachedBlock (objectSize objectOffset : Nat)
  | attachedNested (objectSize objectOffset : Nat)
  | attachedVector (objectSize objectOffset : Nat)

/-- `sizeof(im_value)`. -/
def sizeofImValue : Nat := 16

namespace ImValue

variable {ε : Type}

def status : ImValue ε → Status
  | .empty => .empty
  | .deleted => .deleted
  | _ => .live

/-- The value is in one of the `IM_EXTERNAL_*` forms. -/
def IsExternal : ImValue ε → Prop
  | .externalString .. | .externalBlock .. | .externalNested .. | .externalVector .. => True
  | _ => False

end ImValue

/-- `im_vector_bucket`. -/
structure ImVectorBucket (ε : Type) where
  valueLength : Nat
  value : ImValue ε

/-- `im_hash_bucket`; the key field has 103 bytes. -/
structure ImHashBucket (ε : Type) extends ImVectorBucket ε where
  key : List UInt8

/-- The attached area of an object with its two counters. -/
structure Attached (ρ : Type) where
  attachedSize : Nat
  attachedOffset : Nat
  area : Nat → Option ρ

def Attached.none {ρ : Type} : Attached ρ := ⟨0, 0, fun _ => .none⟩

/-- `im_vector`, for a given kind of attached objects. -/
structure VectorOf (ε ρ : Type) where
  numberOfBuckets : Nat
  inuse : Nat
  attached : Attached ρ
  buckets : List (ImVectorBucket ε)

/-- The contents of a block of memory: bytes, a hash table or a vector.  A copy
of only the first bytes of an object is `torn`: nothing can be read from it. -/
inductive ImObject (ε : Type)
  | bytes (content : List UInt8)
  | torn (length : Nat)
  | hashtable (table : Table (ImHashBucket ε) (Attached (ImObject ε)))
  | vector (vector : VectorOf ε (ImObject ε))

/-- A block with a single owner, represented by its contents. -/
inductive Owned
  | alloc (content : ImObject Owned)

def Owned.content : Owned → ImObject Owned
  | .alloc content => content

abbrev ImHashtable (ε : Type) := Table (ImHashBucket ε) (Attached (ImObject ε))

abbrev ImVector (ε : Type) := VectorOf ε (ImObject ε)

/-- Bytes from the start of a hash table to its attached area. -/
def hashSize (numberOfBuckets : Nat) : Nat := 32 + 128 * numberOfBuckets

/-- Bytes from the start of a vector to its attached area. -/
def vectorSize (numberOfBuckets : Nat) : Nat := 32 + 32 * numberOfBuckets

/-- Size of the block that an object fills. -/
def ImObject.size {ε : Type} : ImObject ε → Nat
  | .bytes content => content.length
  | .torn length => length
  | .hashtable table => hashSize table.numberOfBuckets + table.extra.attachedSize
  | .vector items => vectorSize items.numberOfBuckets + items.attached.attachedSize

/-- What `memcpy` of the first `length` bytes of an object yields; `none` is a
read behind the end of the block. -/
def ImObject.copy {ε : Type} (object : ImObject ε) (length : Nat) : Option (ImObject ε) :=
  if object.size = length then some object
  else if length < object.size then some (.torn length)
  else none

@[simp]
theorem ImObject.copy_size {ε : Type} (object : ImObject ε) :
    object.copy object.size = some object := by
  simp [copy]

namespace Attached

variable {ε : Type}

/-- The area as `memcpy` moves it to a rebuilt object: the first
`attached_offset` bytes and nothing behind them. -/
def carry (attached : Attached (ImObject ε)) : Attached (ImObject ε) where
  attachedSize := attached.attachedOffset
  attachedOffset := attached.attachedOffset
  area := Area.clip ImObject.size attached.area attached.attachedOffset

end Attached

end FrameCode.ImTypes
