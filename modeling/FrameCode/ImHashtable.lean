import FrameCode.ImTypes
import FrameCode.PrimeTable

/-!
# The hash table `im_hashtable.c`

The operations of the hash table on its own block, generic in what stands for a
`malloc`ed object.  Every allocation succeeds; releasing the object of a deleted
bucket is an effect on other blocks and does not show here.
-/

namespace FrameCode.ImHashtable

open OpenAddressing ImTypes MachineInt PrimeTable

/-- A `char`, sign extended to an unsigned 32-bit number. -/
def charToUInt32 (byte : UInt8) : Nat :=
  if byte.toNat < 128 then byte.toNat else byte.toNat + 4294967040

/-- `im_hashcode` before the reduction modulo the number of buckets. -/
def imHashcode (key : List UInt8) : Nat :=
  (cString keyMaxLength key).foldl
    (fun hashcode byte => toUInt32 (toUInt32 (hashcode * 32) + charToUInt32 byte)) 0

theorem imHashcode_cString (key : List UInt8) :
    imHashcode (cString keyMaxLength key) = imHashcode key := by
  have idempotent : cString keyMaxLength (cString keyMaxLength key) =
      cString keyMaxLength key := by
    have short := cString_length_le keyMaxLength key
    rw [cString.eq_1 keyMaxLength (cString keyMaxLength key), List.take_of_length_le short,
      List.takeWhile_eq_self_iff]
    intro byte member
    simpa using cString_ne_zero member
  rw [imHashcode, idempotent, imHashcode]

variable {ε : Type}

/-- A bucket of a `calloc`ed table. -/
def blankBucket : ImHashBucket ε where
  valueLength := 0
  value := .empty
  key := List.replicate 103 0

/-- How the hash table uses open addressing: keys count by their first 102
bytes, and a rebuilt table takes the used part of the attached area along. -/
def imOps (ε : Type) : SlotOps (ImHashBucket ε) (List UInt8) (Attached (ImObject ε)) where
  status bucket := bucket.value.status
  key bucket := cString keyMaxLength bucket.key
  hash := imHashcode
  blank := blankBucket
  erase bucket := { bucket with value := .deleted }
  wipe bucket := { bucket with value := .empty }
  sizeFor := numberOfBuckets
  extra := Attached.none
  carry := Attached.carry
  limit := 499991
  status_blank := rfl
  status_erase _ := rfl
  key_erase _ := rfl
  status_wipe _ := rfl
  prime_sizeFor := numberOfBuckets_prime
  odd_sizeFor := numberOfBuckets_odd
  sizeFor_lt := numberOfBuckets_lt
  limit_lt := entries_lt
  fits _ := numberOfBuckets_fits
  room _ := numberOfBuckets_room

/-- The `int` that reports a position, or `-1`. -/
def positionCode : Option Nat → Int
  | none => -1
  | some position => position

def imInitializeHashtable (capacity : Int) : ImHashtable ε := Table.create (imOps ε) capacity

theorem imInitializeHashtable_inv (capacity : Int) :
    (imInitializeHashtable capacity : ImHashtable ε).Inv (imOps ε) :=
  (Table.create_inv (imOps ε) capacity Attached.none).1

def imFindElement (hashtable : ImHashtable ε) (key : List UInt8) : Option Nat :=
  hashtable.find (imOps ε) (cString keyMaxLength key)

def imRetrieveElement (hashtable : ImHashtable ε) (position : Nat) : Option (ImHashBucket ε) :=
  hashtable.retrieve (imOps ε) position

/-- The outer `none` is a search that leaves the table. -/
def imRetrieveElementByKey (hashtable : ImHashtable ε) (key : List UInt8) :
    Option (Option (ImHashBucket ε)) :=
  (imFindElement hashtable key).map (imRetrieveElement hashtable)

def imDeleteElement (hashtable : ImHashtable ε) (position : Nat) : ImHashtable ε × Int :=
  let result := hashtable.delete (imOps ε) position
  (result.1, positionCode result.2)

def imDeleteElementByKey (hashtable : ImHashtable ε) (key : List UInt8) :
    Option (ImHashtable ε × Int) :=
  (imFindElement hashtable key).map (imDeleteElement hashtable)

/-- `im_empty_hashtable`; the attached area keeps its size. -/
def imEmptyHashtable (hashtable : ImHashtable ε) : ImHashtable ε :=
  hashtable.clear (imOps ε) { hashtable.extra with attachedOffset := 0 }

/-- `im_rehash_hashtable`.  A rebuild inside a rebuild starts from fewer
entries, so the number of entries bounds the nesting. -/
def imRehashHashtable (hashtable : ImHashtable ε) : Option (ImHashtable ε × Int) :=
  (Table.rehash (imOps ε) (hashtable.inuse + 1) hashtable).map fun result =>
    (result.1, if result.2 then 0 else -1)

def imInsertElement (hashtable : ImHashtable ε) (bucket : ImHashBucket ε) :
    Option (ImHashtable ε × Int) :=
  (Table.insert (imOps ε) (hashtable.inuse + 1) hashtable bucket).map fun result =>
    (result.1, positionCode result.2)

/-! ## A small table -/

/-- The key field of a key of one letter. -/
def letterKey (letter : UInt8) : List UInt8 := letter :: List.replicate 102 0

/-- A table of seven buckets in which the keys `"d"`, `"r"` and `"k"`, all with one probe
sequence, have been inserted and the first of them deleted. -/
def probedTable : ImHashtable Owned where
  numberOfBuckets := 7
  inuse := 2
  empty := 4
  extra := Attached.none
  buckets := [blankBucket, blankBucket, ⟨⟨4, .deleted⟩, letterKey 100⟩,
    ⟨⟨4, .num .int 2⟩, letterKey 114⟩, blankBucket, blankBucket,
    ⟨⟨4, .num .int 3⟩, letterKey 107⟩]

theorem probedTable_inv : probedTable.Inv (imOps Owned) where
  sized := ⟨3, numberOfBuckets_three.symm⟩
  length_buckets := rfl
  inuse_eq := rfl
  empty_eq := rfl
  half_empty := by decide
  distinct := by decide +kernel
  reachable := by
    have paths : ∀ p < 7, probedTable.Occupied (imOps Owned) p →
        ∃ k < 3, probedTable.probe (imOps Owned)
            ((imOps Owned).key (probedTable.slot (imOps Owned) p)) k = p ∧
          ∀ i < k, probedTable.Occupied (imOps Owned) (probedTable.probe (imOps Owned)
            ((imOps Owned).key (probedTable.slot (imOps Owned) p)) i) := by
      decide +kernel
    intro p inside used
    obtain ⟨k, -, path⟩ := paths p inside used
    exact ⟨k, path⟩

theorem probedTable_holds : probedTable.Holds (imOps Owned) [107]
    ⟨⟨4, .num .int 3⟩, letterKey 107⟩ :=
  ⟨by simp [probedTable], rfl, by decide⟩

theorem probedTable_lacks (bucket : ImHashBucket Owned) :
    ¬ probedTable.Holds (imOps Owned) [100] bucket := by
  rintro ⟨member, live, same⟩
  have others : ∀ p < 7, (imOps Owned).status (probedTable.slot (imOps Owned) p) = .live →
      (imOps Owned).key (probedTable.slot (imOps Owned) p) ≠ [100] := by
    decide +kernel
  obtain ⟨p, inside, rfl⟩ := Table.exists_slot_of_mem (imOps Owned) member
  exact others p inside live same

end FrameCode.ImHashtable
