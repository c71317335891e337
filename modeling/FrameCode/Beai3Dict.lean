import FrameCode.CText
import FrameCode.ImSerialize

/-!
# The dictionary interface `Beai3Dict.c`

The calls of the dictionary on valid handles.  Setters and `DeleteDict` work
over a `Memory`, since they allocate and free the objects that buckets refer
to; getters read the block of the dictionary and the objects it refers to.
-/

namespace FrameCode.Beai3Dict

open OpenAddressing RegionMemory ImTypes ImHashtable ImVector ImSerialize MachineInt CText

variable {ε : Type} {m : Type → Type}

def initDict (capacity : Int) : Option (ImHashtable ε) :=
  if capacity < 0 then none else some (imInitializeHashtable capacity)

def initArray (capacity : Int) : Option (ImVector ε) :=
  if capacity < 0 then none else some (imInitializeVector capacity)

/-! ## Setters -/

section Setters

variable [Monad m] (memory : Memory m ε)

/-- `free_bucket`; inlined and attached bytes own no block. -/
def freeBucket (attached : Attached (ImObject ε)) (bucket : ImVectorBucket ε) : m Unit :=
  match bucket.value with
  | .externalString _ object | .externalBlock _ object | .externalNested _ object
  | .externalVector _ object => memory.destroy object
  | .attachedNested _ offset | .attachedVector _ offset => do
      let content ← memory.lift (attached.area offset)
      memory.release content
  | _ => pure ()

/-- `im_delete_element` with the release of the deleted bucket. -/
def deleteElement (table : ImHashtable ε) (position : Nat) : m (ImHashtable ε × Int) := do
  match imRetrieveElement table position with
  | none => pure ()
  | some bucket => freeBucket memory table.extra bucket.toImVectorBucket
  pure (imDeleteElement table position)

def deleteDict (table : ImHashtable ε) (key : List UInt8) : m (ImHashtable ε × Int) := do
  let position ← memory.lift (imFindElement table key)
  deleteElement memory table position

def clearDict (table : ImHashtable ε) : m (ImHashtable ε) := do
  table.buckets.forM fun bucket => freeBucket memory table.extra bucket.toImVectorBucket
  pure (imEmptyHashtable table)

/-- What all setters do: delete the old element of the key, then insert the new
bucket unless it was refused. -/
def replaceElement (table : ImHashtable ε) (key : List UInt8)
    (prepare : m (Option (ImHashBucket ε))) : m (ImHashtable ε × Int) := do
  let existing ← memory.lift (imFindElement table key)
  let deleted ← deleteElement memory table existing
  match ← prepare with
  | none => pure (deleted.1, -1)
  | some inserting => memory.lift (imInsertElement deleted.1 inserting)

/-- The key field of a new bucket, with its 103rd byte. -/
def keyField (key : List UInt8) (last : UInt8) : List UInt8 := strncpy keyMaxLength key ++ [last]

/-- The setters of the numeric types. -/
def setDictNum (type : NumType) (table : ImHashtable ε) (key : List UInt8)
    (value : BitVec type.bits) : m (ImHashtable ε × Int) :=
  replaceElement memory table key
    (pure (some ⟨⟨type.sizeof, .num type value⟩, keyField key 0⟩))

def setDictShort := setDictNum memory .short
def setDictInt := setDictNum memory .int
def setDictLong := setDictNum memory .long
def setDictLongLong := setDictNum memory .longlong
def setDictUShort := setDictNum memory .ushort
def setDictUInt := setDictNum memory .uint
def setDictULong := setDictNum memory .ulong
def setDictULongLong := setDictNum memory .ulonglong
def setDictFloat := setDictNum memory .float
def setDictDouble := setDictNum memory .double
def setDictLongDouble := setDictNum memory .longdouble

/-- Limit on the size of a stored object. -/
def objectLimit : Nat := 1048576

/-- Bytes go into the bucket when they fit there and into a new block otherwise;
too many of them are refused. -/
def storeBytes (inlined : List UInt8 → ImValue ε) (external : Nat → ε → ImValue ε)
    (keyBytes bytes : List UInt8) : m (Option (ImHashBucket ε)) :=
  if objectLimit < bytes.length then pure none
  else if bytes.length ≤ sizeofImValue then
    pure (some ⟨⟨bytes.length, inlined bytes⟩, keyBytes⟩)
  else do
    let object ← memory.alloc (.bytes bytes)
    pure (some ⟨⟨bytes.length, external bytes.length object⟩, keyBytes⟩)

/-- `SetDictString`.  It does not set the last byte of the key field, which keeps
the arbitrary `last`. -/
def setDictString (last : UInt8) (table : ImHashtable ε) (key value : List UInt8) :
    m (ImHashtable ε × Int) :=
  replaceElement memory table key
    (storeBytes memory .string .externalString (keyField key last) (text value ++ [0]))

/-- `SetDictBlock` on `size` bytes at `value`; as `SetDictString`, it leaves the
last byte of the key field as it is. -/
def setDictBlock (last : UInt8) (table : ImHashtable ε) (key value : List UInt8) (size : Int) :
    m (ImHashtable ε × Int) :=
  if size < 0 then pure (table, -1)
  else if value.length < size then memory.stuck
  else replaceElement memory table key
    (storeBytes memory .block .externalBlock (keyField key last) (value.take size.toNat))

/-- The bucket that refers to a nested object of the given sizes. -/
def nestedBucket (form : Nat → ε → ImValue ε) (usedSize objectSize : Nat) (object : ε) :
    Option (ImVectorBucket ε) :=
  if objectLimit < usedSize then none else some ⟨usedSize, form objectSize object⟩

def setDictDict (table : ImHashtable ε) (key : List UInt8) (value : ε) :
    m (ImHashtable ε × Int) := do
  match ← memory.read value with
  | .hashtable child =>
      replaceElement memory table key (pure
        ((nestedBucket .externalNested (hashSize child.numberOfBuckets + child.extra.attachedOffset)
            (hashSize child.numberOfBuckets + child.extra.attachedSize) value).map
          fun bucket => ⟨bucket, keyField key 0⟩))
  | _ => memory.stuck

def setDictArray (table : ImHashtable ε) (key : List UInt8) (value : ε) :
    m (ImHashtable ε × Int) := do
  match ← memory.read value with
  | .vector child =>
      replaceElement memory table key (pure
        ((nestedBucket .externalVector
            (vectorSize child.numberOfBuckets + child.attached.attachedOffset)
            (vectorSize child.numberOfBuckets + child.attached.attachedSize) value).map
          fun bucket => ⟨bucket, keyField key 0⟩))
  | _ => memory.stuck

def addArrayDict (vector : ImVector ε) (value : ε) : m (ImVector ε × Int) := do
  match ← memory.read value with
  | .hashtable child =>
      match nestedBucket .externalNested
          (hashSize child.numberOfBuckets + child.extra.attachedOffset)
          (hashSize child.numberOfBuckets + child.extra.attachedSize) value with
      | none => pure (vector, -1)
      | some adding => memory.lift (imAddElement vector adding)
  | _ => memory.stuck

end Setters

def serializeDict (fuel : Nat) (table : ImHashtable Owned) : Option (ImHashtable Owned × Int) :=
  imSerializeHashtable fuel table

/-! ## Conversions -/

def isFloating : NumType → Bool
  | .float | .double | .longdouble => true
  | _ => false

def isSigned : NumType → Bool
  | .short | .int | .long | .longlong => true
  | _ => false

/-- The floating-point part of the machine and the C library: conversions from
or to a floating type, `atof` and the format `%.2f`. -/
structure Floating where
  convert : (source target : NumType) → BitVec source.bits → BitVec target.bits
  atof : (target : NumType) → List UInt8 → BitVec target.bits
  format : (source : NumType) → BitVec source.bits → List UInt8

/-- The number that bits of an integer type stand for. -/
def integerValue (type : NumType) (value : BitVec type.bits) : Int :=
  if isSigned type then value.toInt else value.toNat

variable (floating : Floating)

/-- Assignment between variables of two numeric types. -/
def convertNum (source target : NumType) (value : BitVec source.bits) : BitVec target.bits :=
  if same : source = target then same ▸ value
  else if isFloating source || isFloating target then floating.convert source target value
  else BitVec.ofInt target.bits (integerValue source value)

@[simp]
theorem convertNum_self (type : NumType) (value : BitVec type.bits) :
    convertNum floating type type value = value := by
  simp [convertNum]

/-- Which of `atoi`, `atol`, `atoll` and `atof` a getter applies to a string. -/
def parseNum : (target : NumType) → List UInt8 → BitVec target.bits
  | .short, bytes => BitVec.ofInt _ (atoi bytes)
  | .int, bytes => BitVec.ofInt _ (atoi bytes)
  | .long, bytes => BitVec.ofInt _ (atol bytes)
  | .longlong, bytes => BitVec.ofInt _ (atoll bytes)
  | .ushort, bytes => BitVec.ofInt _ (atoi bytes)
  | .uint, bytes => BitVec.ofInt _ (atoi bytes)
  | .ulong, bytes => BitVec.ofInt _ (atol bytes)
  | .ulonglong, bytes => BitVec.ofInt _ (atoll bytes)
  | .float, bytes => floating.atof .float bytes
  | .double, bytes => floating.atof .double bytes
  | .longdouble, bytes => floating.atof .longdouble bytes

def formatNum (type : NumType) (value : BitVec type.bits) : List UInt8 :=
  if isFloating type then floating.format type value else decimal (integerValue type value)

/-! ## Getters -/

section Getters

variable (deref : ε → Option (ImObject ε)) (attached : Attached (ImObject ε))

/-- The bytes of a block object or of a string. -/
def ImObject.bytes? : ImObject ε → Option (List UInt8)
  | .bytes content => some content
  | _ => none

/-- The bytes of a string bucket; the inner `none` is any other bucket. -/
def stringBytes : ImValue ε → Option (Option (List UInt8))
  | .string bytes => some (some bytes)
  | .externalString _ object => ((deref object).bind ImObject.bytes?).map some
  | .attachedString _ offset => ((attached.area offset).bind ImObject.bytes?).map some
  | _ => some none

def blockBytes : ImValue ε → Option (Option (List UInt8))
  | .block bytes => some (some bytes)
  | .externalBlock _ object => ((deref object).bind ImObject.bytes?).map some
  | .attachedBlock _ offset => ((attached.area offset).bind ImObject.bytes?).map some
  | _ => some none

/-- What a numeric getter answers for a bucket, `none` inside being `-1`. -/
def answerNum (target : NumType) : ImValue ε → Option (Option (BitVec target.bits))
  | .num source value => some (some (convertNum floating source target value))
  | value => (stringBytes deref attached value).map fun bytes =>
      bytes.map (parseNum floating target)

/-- The text `GetDictString` leaves in a buffer of `size` bytes. -/
def answerString (size : Nat) : ImValue ε → Option (Option (List UInt8))
  | .num source value => some (some ((formatNum floating source value).take (size - 1)))
  | value => (stringBytes deref attached value).map fun bytes => bytes.map (cString (size - 1))

/-- The bytes `GetDictBlock` copies into a buffer of `size` bytes. -/
def answerBlock (size : Nat) (bucket : ImVectorBucket ε) : Option (Option (List UInt8)) :=
  (blockBytes deref attached bucket.value).bind fun bytes =>
    match bytes with
    | none => some none
    | some bytes =>
        if min size bucket.valueLength ≤ bytes.length then
          some (some (bytes.take (min size bucket.valueLength)))
        else none

/-- What a handle of a nested object points to: a block, or an object in the
attached area. -/
inductive Place (ε : Type)
  | block (object : ε)
  | attached (offset : Nat)

def nestedPlace (kind : Kind) : ImValue ε → Option (Place ε)
  | .externalNested _ object => if kind = .nested then some (.block object) else none
  | .attachedNested _ offset => if kind = .nested then some (.attached offset) else none
  | .externalVector _ object => if kind = .vector then some (.block object) else none
  | .attachedVector _ offset => if kind = .vector then some (.attached offset) else none
  | _ => none

/-- The object that a handle points to. -/
def resolve : Place ε → Option (ImObject ε)
  | .block object => deref object
  | .attached offset => attached.area offset

end Getters

section Dictionaries

variable (deref : ε → Option (ImObject ε)) (table : ImHashtable ε) (key : List UInt8)

/-- Every getter retrieves the bucket of the key and fails without one.  The
outer `none` is a search that leaves the table. -/
def withElement {α : Type} (answer : ImHashBucket ε → Option (Option α)) :
    Option (Option α) :=
  (imRetrieveElementByKey table key).bind fun bucket =>
    match bucket with
    | none => some none
    | some bucket => answer bucket

def getDictNum (target : NumType) : Option (Option (BitVec target.bits)) :=
  withElement table key fun bucket => answerNum floating deref table.extra target bucket.value

def getDictShort := getDictNum floating deref table key .short
def getDictInt := getDictNum floating deref table key .int
def getDictLong := getDictNum floating deref table key .long
def getDictLongLong := getDictNum floating deref table key .longlong
def getDictUShort := getDictNum floating deref table key .ushort
def getDictUInt := getDictNum floating deref table key .uint
def getDictULong := getDictNum floating deref table key .ulong
def getDictULongLong := getDictNum floating deref table key .ulonglong
def getDictFloat := getDictNum floating deref table key .float
def getDictDouble := getDictNum floating deref table key .double
def getDictLongDouble := getDictNum floating deref table key .longdouble

def getDictString (size : Int) : Option (Option (List UInt8)) :=
  if size ≤ 0 then some none
  else withElement table key fun bucket =>
    answerString floating deref table.extra size.toNat bucket.value

def getDictBlock (size : Int) : Option (Option (List UInt8)) :=
  if size ≤ 0 then some none
  else withElement table key fun bucket =>
    answerBlock deref table.extra size.toNat bucket.toImVectorBucket

def getDictDict : Option (Option (Place ε)) :=
  withElement table key fun bucket => some (nestedPlace .nested bucket.value)

def getDictArray : Option (Option (Place ε)) :=
  withElement table key fun bucket => some (nestedPlace .vector bucket.value)

def getDictNElement : Nat := table.inuse

/-- The key fields of the first `keyc` live buckets. -/
def getDictKeyv (keyc : Int) : List (List UInt8) :=
  ((table.buckets.filter fun bucket => decide (bucket.value.status = .live)).take
    keyc.toNat).map ImHashBucket.key

end Dictionaries

def getArrayLength (vector : ImVector ε) : Nat := vector.inuse

def getArrayDict (vector : ImVector ε) (index : Int) : Option (Place ε) :=
  (imGetElement vector index).bind fun bucket => nestedPlace .nested bucket.value

end FrameCode.Beai3Dict
