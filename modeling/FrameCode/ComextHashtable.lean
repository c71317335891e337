import FrameCode.OpenAddressing
import FrameCode.PrimeTable

/-!
# The response table `comext-hashtable.c`

The hash table in which a communication module collects the fragments of
messages.  It has the layout of the hash table of the dictionary, with one bucket
for each reference id.

`hashcode` shifts a 32-bit number by `sizeof(hashcode) - 5`, which is not a defined
shift, so it is a parameter here: some function of the reference id.  Every
allocation succeeds, and a fragment stands for the block that holds it.
-/

namespace FrameCode.Comext

open OpenAddressing PrimeTable

/-- The array `fragments` of a bucket. -/
abbrev Fragments := Vector (Option (List UInt8)) 64

def noFragments : Fragments := Vector.replicate 64 none

/-- `COMEXT_BUCKET`; `refid` is the text in the array. -/
structure ComextBucket where
  info : Status
  refid : List UInt8
  time : Int
  fragments : Fragments

abbrev ComextHashtable := Table ComextBucket Unit

variable (hashcode : List UInt8 → Nat)

/-- How the response table uses open addressing. -/
def comextOps : SlotOps ComextBucket (List UInt8) Unit where
  status := ComextBucket.info
  key := ComextBucket.refid
  hash := hashcode
  blank := ⟨.empty, [], 0, noFragments⟩
  erase bucket := { bucket with info := .deleted, fragments := noFragments }
  wipe bucket := { bucket with
    info := .empty
    fragments := if bucket.info = .live then noFragments else bucket.fragments }
  sizeFor := numberOfBuckets
  extra := ()
  carry := id
  limit := 499991
  status_blank := rfl
  status_erase _ := rfl
  key_erase _ := rfl
  status_wipe _ := rfl
  prime_sizeFor := numberOfBuckets_prime
  odd_sizeFor := numberOfBuckets_odd
  sizeFor_lt := numberOfBuckets_lt
  limit_lt := entries_lt
  fits _ := numberOfBuckets_fits
  room _ := numberOfBuckets_room

def comextInitializeHashtable (capacity : Int) : ComextHashtable :=
  Table.create (comextOps hashcode) capacity

/-- `none` is a search that leaves the table. -/
def comextFindElement (hashtable : ComextHashtable) (refid : List UInt8) : Option Nat :=
  hashtable.find (comextOps hashcode) refid

def comextRetrieveElement (hashtable : ComextHashtable) (position : Nat) :
    Option ComextBucket :=
  hashtable.retrieve (comextOps hashcode) position

def comextDeleteElement (hashtable : ComextHashtable) (position : Nat) :
    ComextHashtable × Option Nat :=
  hashtable.delete (comextOps hashcode) position

def comextDeleteElementByRefid (hashtable : ComextHashtable) (refid : List UInt8) :
    Option (ComextHashtable × Option Nat) :=
  (comextFindElement hashcode hashtable refid).map (comextDeleteElement hashcode hashtable)

def comextEmptyHashtable (hashtable : ComextHashtable) : ComextHashtable :=
  hashtable.clear (comextOps hashcode) ()

def comextRehashHashtable (hashtable : ComextHashtable) : Option (ComextHashtable × Bool) :=
  Table.rehash (comextOps hashcode) (hashtable.inuse + 1) hashtable

def comextInsertElement (hashtable : ComextHashtable) (bucket : ComextBucket) :
    Option (ComextHashtable × Option Nat) :=
  Table.insert (comextOps hashcode) (hashtable.inuse + 1) hashtable bucket

end FrameCode.Comext
