import FrameCode.Beai3Dict
import FrameCode.ImInvariant
import FrameCode.ImLayout

/-!
# The dictionary as a finite map

Over whole runs of setters of numbers, strings and blocks, `DeleteDict`,
`ClearDict` and `SerializeDict`, a dictionary is a finite map from keys to the
values last set.  Keys count by their first 102 bytes.
-/

namespace FrameCode.Beai3Dict

open OpenAddressing RegionMemory ImTypes ImHashtable ImSerialize MachineInt CText

/-! ## Owned dictionaries whose buckets can be read -/

/-- Every bucket can be read, and the attached objects do not overlap. -/
structure Readable (table : ImHashtable Owned) : Prop where
  separated : Area.Separated ImObject.size table.extra.area
  sees : ∀ bucket ∈ table.buckets, ∃ seen, Sees table.extra bucket.toImVectorBucket seen

theorem freeBucket_owned {attached : Attached (ImObject Owned)} {bucket : ImVectorBucket Owned}
    {seen : Seen} (sees : Sees attached bucket seen) :
    freeBucket owned attached bucket = some () := by
  cases sees with
  | @plain _ value isPlain => cases value <;> first | rfl | cases isPlain
  | attachedNested found => simp [freeBucket, found]
  | attachedVector found => simp [freeBucket, found]
  | _ => rfl

theorem deleteElement_owned {table : ImHashtable Owned} (readable : Readable table)
    {position : Nat} (inside : position < table.buckets.length) :
    deleteElement owned table position = some (imDeleteElement table position) := by
  have member := Table.slot_mem (imOps Owned) inside
  obtain ⟨seen, sees⟩ := readable.sees _ member
  unfold deleteElement
  by_cases live : (imOps Owned).status (table.slot (imOps Owned) position) = .live
  · simp [imRetrieveElement, Table.retrieve, live, freeBucket_owned sees]
  · simp [imRetrieveElement, Table.retrieve, live]

theorem freeBuckets_owned {attached : Attached (ImObject Owned)}
    {buckets : List (ImHashBucket Owned)}
    (sees : ∀ bucket ∈ buckets, ∃ seen, Sees attached bucket.toImVectorBucket seen) :
    (forM buckets fun bucket => freeBucket owned attached bucket.toImVectorBucket) = some () := by
  induction buckets with
  | nil => rfl
  | cons bucket rest ih =>
      obtain ⟨seen, seesFirst⟩ := sees bucket (by simp)
      simp [freeBucket_owned seesFirst, ih fun other member => sees other (by simp [member])]

section Calls

variable {table : ImHashtable Owned}

/-- Deleting the element of a key removes exactly this binding. -/
theorem deleteElement_spec (inv : table.Inv (imOps Owned)) (readable : Readable table)
    (key : List UInt8) :
    ∃ position after code, imFindElement table key = some position ∧
      deleteElement owned table position = some (after, code) ∧ after.Inv (imOps Owned) ∧
      after.extra = table.extra ∧ after.inuse ≤ table.inuse ∧
      ∀ other entry, after.Holds (imOps Owned) other entry ↔
        table.Holds (imOps Owned) other entry ∧ other ≠ cString keyMaxLength key := by
  obtain ⟨position, inside, found, unique, keyOf, -⟩ := inv.find_place (cString keyMaxLength key)
  have listInside : position < table.buckets.length := inv.length_buckets ▸ inside
  have deletedEq := deleteElement_owned readable listInside
  by_cases live : (imOps Owned).status (table.slot (imOps Owned) position) = .live
  · obtain ⟨after, deleted, afterInv, -, afterExtra, afterInuse, afterHolds⟩ :=
      inv.delete_spec inside live
    rw [keyOf (Table.occupied_of_live live)] at afterHolds
    refine ⟨position, after, position, found, ?_, afterInv, afterExtra, by omega, afterHolds⟩
    simp [deletedEq, imDeleteElement, deleted, positionCode]
  · refine ⟨position, table, -1, found, ?_, inv, rfl, le_rfl, ?_⟩
    · simp [deletedEq, imDeleteElement, Table.Inv.delete_of_not_live live, positionCode]
    · intro other entry
      refine ⟨fun holds => ⟨holds, ?_⟩, fun holds => holds.1⟩
      rintro rfl
      obtain ⟨member, entryLive, keyEq⟩ := holds
      obtain ⟨p, pInside, rfl⟩ := Table.exists_slot_of_mem (imOps Owned) member
      rw [inv.length_buckets] at pInside
      obtain rfl := unique p pInside (Table.occupied_of_live entryLive) keyEq
      exact live entryLive

/-- A setter replaces exactly the binding of its key. -/
theorem replaceElement_spec (inv : table.Inv (imOps Owned)) (readable : Readable table)
    (roomy : table.inuse < 499991) {key : List UInt8} {bucket : ImHashBucket Owned}
    (live : bucket.value.status = .live)
    (key_eq : cString keyMaxLength bucket.key = cString keyMaxLength key) :
    ∃ after code, replaceElement owned table key (some (some bucket)) = some (after, code) ∧
      0 ≤ code ∧ after.Inv (imOps Owned) ∧ after.inuse ≤ table.inuse + 1 ∧
      (after.extra = table.extra ∨ after.extra = table.extra.carry) ∧
      ∀ other entry, after.Holds (imOps Owned) other entry ↔
        (entry = bucket ∧ other = cString keyMaxLength key) ∨
          (table.Holds (imOps Owned) other entry ∧ other ≠ cString keyMaxLength key) := by
  obtain ⟨position, deleted, code, found, deletedEq, deletedInv, deletedExtra, deletedInuse,
    deletedHolds⟩ := deleteElement_spec inv readable key
  have absent (old : ImHashBucket Owned) :
      ¬ deleted.Holds (imOps Owned) ((imOps Owned).key bucket) old := by
    intro holds
    exact ((deletedHolds _ _).mp holds).2 key_eq
  obtain ⟨after, place, inserted, afterInv, afterInuse, afterExtra, afterHolds⟩ :=
    deletedInv.insert_spec (lt_of_le_of_lt deletedInuse roomy) deleted.inuse live absent
  refine ⟨after, place, ?_, by simp, afterInv, by omega, ?_, ?_⟩
  · simp [replaceElement, found, deletedEq, imInsertElement, inserted, positionCode]
  · rw [deletedExtra] at afterExtra
    exact afterExtra
  · intro other entry
    rw [afterHolds, deletedHolds]
    have keyIff : (imOps Owned).key bucket = other ↔ other = cString keyMaxLength key :=
      ⟨fun same => same.symm.trans key_eq, fun same => key_eq.trans same.symm⟩
    rw [keyIff]

theorem keyField_cString (key : List UInt8) (last : UInt8) :
    cString keyMaxLength (keyField key last) = cString keyMaxLength key :=
  cString_strncpy keyMaxLength key [last]

end Calls

/-! ## Runs -/

/-- A value that a setter stores. -/
inductive Value
  | num (type : NumType) (value : BitVec type.bits)
  | string (bytes : List UInt8)
  | block (bytes : List UInt8)

/-- The size limit of strings, with their NUL, and of blocks. -/
def Value.Storable : Value → Prop
  | .num .. => True
  | .string bytes => (text bytes).length + 1 ≤ objectLimit
  | .block bytes => bytes.length ≤ objectLimit

/-- The calls of a run.  A setter finds the byte `last` at the end of its key
field. -/
inductive DictCall
  | set (key : List UInt8) (value : Value) (last : UInt8)
  | delete (key : List UInt8)
  | clear
  | serialize (fuel : Nat)

def setValue (table : ImHashtable Owned) (key : List UInt8) (last : UInt8) :
    Value → Option (ImHashtable Owned × Int)
  | .num type value => setDictNum owned type table key value
  | .string bytes => setDictString owned last table key bytes
  | .block bytes => setDictBlock owned last table key bytes bytes.length

def performCall (table : ImHashtable Owned) : DictCall → Option (ImHashtable Owned × Int)
  | .set key value last => setValue table key last value
  | .delete key => deleteDict owned table key
  | .clear => (clearDict owned table).map fun cleared => (cleared, 0)
  | .serialize fuel => serializeDict fuel table

/-- What the setters' conditions ask before a call. -/
def Admissible (table : ImHashtable Owned) : DictCall → Prop
  | .set _ value _ => value.Storable ∧ getDictNElement table < 499991
  | _ => True

/-- The dictionaries of a run from `InitDict(capacity)`, with the calls made so
far, the latest first. -/
inductive Run (capacity : Int) : List DictCall → ImHashtable Owned → Prop
  | init {table : ImHashtable Owned} (created : initDict capacity = some table) :
      Run capacity [] table
  | call {calls : List DictCall} {table after : ImHashtable Owned} {code : Int} (call : DictCall)
      (before : Run capacity calls table) (admissible : Admissible table call)
      (performed : performCall table call = some (after, code)) :
      Run capacity (call :: calls) after

/-- The value of the last call on the keys with the first 102 bytes `name` since
the last `ClearDict`, if this call was a setter. -/
def lastSet : List DictCall → List UInt8 → Option Value
  | [], _ => none
  | .set key value _ :: earlier, name =>
      if cString keyMaxLength key = name then some value else lastSet earlier name
  | .delete key :: earlier, name =>
      if cString keyMaxLength key = name then none else lastSet earlier name
  | .clear :: _, _ => none
  | .serialize _ :: earlier, name => lastSet earlier name

/-- What the bucket of a value stands for. -/
def Value.seen : Value → Seen
  | .num type value => .plain (.num type value)
  | .string bytes => .string (text bytes ++ [0])
  | .block bytes => .block bytes

/-- The dictionary holds exactly the given values. -/
structure Stores (table : ImHashtable Owned) (values : List UInt8 → Option Value) : Prop where
  inv : table.Inv (imOps Owned)
  separated : Area.Separated ImObject.size table.extra.area
  found : ∀ name value, values name = some value → ∃ entry,
    table.Holds (imOps Owned) name entry
  held : ∀ name entry, table.Holds (imOps Owned) name entry →
    ∃ value, values name = some value ∧ Sees table.extra entry.toImVectorBucket value.seen

namespace Stores

variable {table : ImHashtable Owned} {values : List UInt8 → Option Value}

theorem isPlain_of_dead {value : ImValue Owned} (dead : value.status ≠ .live) :
    IsPlain value := by
  cases value <;> trivial

theorem readable (stores : Stores table values) : Readable table where
  separated := stores.separated
  sees bucket member := by
    by_cases live : bucket.value.status = .live
    · have holds : table.Holds (imOps Owned) (cString keyMaxLength bucket.key) bucket :=
        ⟨member, live, rfl⟩
      obtain ⟨value, -, sees⟩ := stores.held _ bucket holds
      exact ⟨value.seen, sees⟩
    · exact ⟨.plain bucket.value, .plain (isPlain_of_dead live)⟩

theorem storeBytes_owned {inlined : List UInt8 → ImValue Owned}
    {external : Nat → Owned → ImValue Owned} {seen : Seen} (keyBytes : List UInt8)
    {bytes : List UInt8} (small : bytes.length ≤ objectLimit)
    (seesInlined : ∀ attached, bytes.length ≤ sizeofImValue →
      Sees attached ⟨bytes.length, inlined bytes⟩ seen)
    (seesExternal : ∀ attached size,
      Sees attached ⟨bytes.length, external size (.alloc (.bytes bytes))⟩ seen) :
    ∃ bucket : ImHashBucket Owned,
      storeBytes owned inlined external keyBytes bytes = some (some bucket) ∧
      bucket.key = keyBytes ∧ ∀ attached, Sees attached bucket.toImVectorBucket seen := by
  by_cases short : bytes.length ≤ sizeofImValue
  · refine ⟨⟨⟨bytes.length, inlined bytes⟩, keyBytes⟩, ?_, rfl, fun attached =>
      seesInlined attached short⟩
    rw [storeBytes, if_neg (not_lt.mpr small), if_pos short]
    rfl
  · refine ⟨⟨⟨bytes.length, external bytes.length (.alloc (.bytes bytes))⟩, keyBytes⟩, ?_, rfl,
      fun attached => seesExternal attached bytes.length⟩
    rw [storeBytes, if_neg (not_lt.mpr small), if_neg short]
    rfl

theorem live_of_sees {attached : Attached (ImObject Owned)} {bucket : ImVectorBucket Owned}
    {value : Value} (sees : Sees attached bucket value.seen) : bucket.value.status = .live := by
  cases value <;> cases sees <;> rfl

/-- Every setter of a storable value inserts a bucket that stands for it. -/
theorem setValue_eq (table : ImHashtable Owned) (key : List UInt8) (last : UInt8) {value : Value}
    (storable : value.Storable) :
    ∃ bucket : ImHashBucket Owned,
      setValue table key last value = replaceElement owned table key (some (some bucket)) ∧
      cString keyMaxLength bucket.key = cString keyMaxLength key ∧
      ∀ attached, Sees attached bucket.toImVectorBucket value.seen := by
  cases value with
  | num type value =>
      exact ⟨⟨⟨type.sizeof, .num type value⟩, keyField key 0⟩, rfl, keyField_cString key 0,
        fun _ => .plain trivial⟩
  | string bytes =>
      have small : (text bytes ++ [0]).length ≤ objectLimit := by
        simpa [Value.Storable] using storable
      obtain ⟨bucket, stored, key_eq, sees⟩ := storeBytes_owned (keyField key last) small
        (fun _ short => .string short) (fun _ _ => .externalString)
      refine ⟨bucket, ?_, key_eq ▸ keyField_cString key last, sees⟩
      rw [setValue, setDictString, stored]
  | block bytes =>
      have whole : bytes.take (bytes.length : Int).toNat = bytes := by simp
      obtain ⟨bucket, stored, key_eq, sees⟩ := storeBytes_owned (keyField key last) storable
        (fun _ short => .block short) (fun _ _ => .externalBlock)
      refine ⟨bucket, ?_, key_eq ▸ keyField_cString key last, sees⟩
      rw [setValue, setDictBlock, if_neg (by simp), if_neg (by simp), whole, stored]

/-- A setter of a storable value stores it under its key. -/
theorem set (stores : Stores table values) (key : List UInt8) (last : UInt8) {value : Value}
    (storable : value.Storable) (roomy : table.inuse < 499991) :
    ∃ after code, setValue table key last value = some (after, code) ∧
      after.inuse ≤ table.inuse + 1 ∧
      Stores after fun name =>
        if cString keyMaxLength key = name then some value else values name := by
  obtain ⟨bucket, prepared, key_eq, sees⟩ := setValue_eq table key last storable
  have live := live_of_sees (sees table.extra)
  obtain ⟨after, code, replaced, -, afterInv, afterInuse, afterExtra, afterHolds⟩ :=
    replaceElement_spec stores.inv stores.readable roomy live key_eq
  refine ⟨after, code, prepared.trans replaced, afterInuse, afterInv, ?_, ?_, ?_⟩
  · rcases afterExtra with same | carried
    · rw [same]
      exact stores.separated
    · rw [carried]
      exact stores.separated.clip _
  · intro name stored known
    by_cases same : cString keyMaxLength key = name
    · exact ⟨bucket, (afterHolds _ _).mpr (Or.inl ⟨rfl, same.symm⟩)⟩
    · rw [if_neg same] at known
      obtain ⟨entry, holds⟩ := stores.found name stored known
      exact ⟨entry, (afterHolds _ _).mpr (Or.inr ⟨holds, fun again => same again.symm⟩)⟩
  · intro name entry holds
    rcases (afterHolds _ _).mp holds with ⟨rfl, same⟩ | ⟨before, different⟩
    · exact ⟨value, if_pos same.symm, sees _⟩
    · obtain ⟨stored, known, seesEntry⟩ := stores.held name entry before
      refine ⟨stored, by rw [if_neg fun again => different again.symm, known], ?_⟩
      rcases afterExtra with same | carried
      · rw [same]
        exact seesEntry
      · rw [carried]
        exact Sees.carry seesEntry

theorem delete (stores : Stores table values) (key : List UInt8) :
    ∃ after code, deleteDict owned table key = some (after, code) ∧
      Stores after fun name =>
        if cString keyMaxLength key = name then none else values name := by
  obtain ⟨position, after, code, found, deleted, afterInv, afterExtra, -, afterHolds⟩ :=
    deleteElement_spec stores.inv stores.readable key
  refine ⟨after, code, by simp [deleteDict, found, deleted], afterInv, ?_, ?_, ?_⟩
  · rw [afterExtra]
    exact stores.separated
  · intro name stored known
    by_cases same : cString keyMaxLength key = name
    · simp [same] at known
    · rw [if_neg same] at known
      obtain ⟨entry, holds⟩ := stores.found name stored known
      exact ⟨entry, (afterHolds _ _).mpr ⟨holds, fun again => same again.symm⟩⟩
  · intro name entry holds
    obtain ⟨before, different⟩ := (afterHolds _ _).mp holds
    obtain ⟨stored, known, sees⟩ := stores.held name entry before
    refine ⟨stored, by rw [if_neg fun again => different again.symm, known], ?_⟩
    rw [afterExtra]
    exact sees

theorem clear (stores : Stores table values) :
    clearDict owned table = some (imEmptyHashtable table) ∧
      Stores (imEmptyHashtable table) fun _ => none := by
  obtain ⟨clearedInv, clearedHolds⟩ :=
    stores.inv.clear_spec { table.extra with attachedOffset := 0 }
  refine ⟨?_, clearedInv, stores.separated, by simp, ?_⟩
  · simp [clearDict, freeBuckets_owned stores.readable.sees]
  · intro name entry holds
    exact absurd holds (clearedHolds _ _)

/-- A value without a nested object. -/
def IsFlat : Seen → Prop
  | .nested .. => False
  | _ => True

/-- What a bucket of a dictionary stands for. -/
def Contents (table : ImHashtable Owned) (values : List UInt8 → Option Value)
    (bucket : ImHashBucket Owned) (seen : Seen) : Prop :=
  Sees table.extra bucket.toImVectorBucket seen ∧ IsFlat seen ∧
    (bucket.value.status = .live → ∃ value,
      values (cString keyMaxLength bucket.key) = some value ∧ seen = value.seen)

theorem exists_contents (stores : Stores table values) :
    ∃ seens, List.Forall₂ (Contents table values) table.buckets seens := by
  apply exists_forall₂
  intro bucket member
  by_cases live : bucket.value.status = .live
  · obtain ⟨value, known, sees⟩ := stores.held _ bucket ⟨member, live, rfl⟩
    refine ⟨value.seen, sees, ?_, fun _ => ⟨value, known, rfl⟩⟩
    cases value <;> trivial
  · exact ⟨.plain bucket.value, .plain (isPlain_of_dead live), trivial,
      fun alive => absurd alive live⟩

theorem serializes_flat {serialize : Kind → Owned → Option (Owned × Int)} {seen : Seen}
    (flat : IsFlat seen) : Serializes serialize seen seen := by
  cases seen with
  | plain => exact .plain
  | string => exact .string
  | block => exact .block
  | nested => exact absurd flat id

/-- Serialising keeps every value. -/
theorem serialize (stores : Stores table values) (fuel : Nat) :
    ∃ after code, serializeDict fuel table = some (after, code) ∧ Stores after values := by
  obtain ⟨seens, contents⟩ := stores.exists_contents
  have sees : List.Forall₂ (Sees table.extra) (commonParts table) seens :=
    List.forall₂_map_left_iff.mpr (contents.imp fun _ _ content => content.1)
  have serializes : List.Forall₂ (Serializes (serializeObject owned fuel)) seens seens := by
    refine List.forall₂_same.mpr fun seen member => ?_
    obtain ⟨i, inside, rfl⟩ := List.mem_iff_getElem.mp member
    exact serializes_flat (contents.get (contents.length_eq ▸ inside) inside).2.1
  obtain ⟨after, serialized, -, arranged, -⟩ :=
    serializeTable_spec stores.separated sees serializes
  obtain ⟨size_eq, inuse_eq, empty_eq, similar⟩ := imSerializeHashtable_similar serialized
  have seesAfter := arranged.sees
  refine ⟨after, _, serialized, stores.inv.of_similar size_eq inuse_eq empty_eq similar,
    arranged.separated, ?_, ?_⟩
  · intro name value stored
    obtain ⟨entry, member, live, keyEq⟩ := stores.found name value stored
    obtain ⟨i, inside, rfl⟩ := List.mem_iff_getElem.mp member
    have insideAfter : i < after.buckets.length := similar.length_eq ▸ inside
    obtain ⟨sameStatus, sameKey⟩ := similar.get inside insideAfter
    exact ⟨after.buckets[i], List.getElem_mem insideAfter, sameStatus.trans live,
      sameKey.trans keyEq⟩
  · rintro name entry ⟨member, live, keyEq⟩
    obtain ⟨i, insideAfter, rfl⟩ := List.mem_iff_getElem.mp member
    have inside : i < table.buckets.length := similar.length_eq ▸ insideAfter
    obtain ⟨sameStatus, sameKey⟩ := similar.get inside insideAfter
    have insideSeens : i < seens.length := contents.length_eq ▸ inside
    obtain ⟨-, -, known⟩ := contents.get inside insideSeens
    obtain ⟨value, stored, seenEq⟩ := known (sameStatus.symm.trans live)
    have seesEntry : Sees after.extra after.buckets[i].toImVectorBucket seens[i] :=
      (List.forall₂_map_left_iff.mp arranged.sees).get insideAfter insideSeens
    have sameName : cString keyMaxLength table.buckets[i].key = name := sameKey.symm.trans keyEq
    exact ⟨value, sameName ▸ stored, seenEq ▸ seesEntry⟩

end Stores

/-! ## What the getters answer -/

section Getters

variable {table : ImHashtable Owned}

theorem retrieve_of_holds (inv : table.Inv (imOps Owned)) {key : List UInt8}
    {entry : ImHashBucket Owned}
    (holds : table.Holds (imOps Owned) (cString keyMaxLength key) entry) :
    imRetrieveElementByKey table key = some (some entry) := by
  obtain ⟨position, -, found, rfl⟩ := inv.find_holds holds
  obtain ⟨-, live, -⟩ := holds
  simp [imRetrieveElementByKey, imFindElement, found, imRetrieveElement, Table.retrieve, live]

theorem retrieve_of_absent (inv : table.Inv (imOps Owned)) {key : List UInt8}
    (absent : ∀ entry, ¬ table.Holds (imOps Owned) (cString keyMaxLength key) entry) :
    imRetrieveElementByKey table key = some none := by
  obtain ⟨position, -, found, dead⟩ := inv.find_absent absent
  simp [imRetrieveElementByKey, imFindElement, found, imRetrieveElement, Table.retrieve, dead]

/-- Follow the pointer of a block with a single owner. -/
def derefOwned (object : Owned) : Option (ImObject Owned) := some object.content

theorem stringBytes_of_sees {attached : Attached (ImObject Owned)}
    {bucket : ImVectorBucket Owned} {bytes : List UInt8}
    (sees : Sees attached bucket (.string bytes)) :
    stringBytes derefOwned attached bucket.value = some (some bytes) := by
  cases sees with
  | string short => rfl
  | externalString => rfl
  | attachedString found inside => simp [stringBytes, found, ImObject.bytes?]

theorem blockBytes_of_sees {attached : Attached (ImObject Owned)}
    {bucket : ImVectorBucket Owned} {bytes : List UInt8}
    (sees : Sees attached bucket (.block bytes)) :
    blockBytes derefOwned attached bucket.value = some (some bytes) ∧
      bucket.valueLength = bytes.length := by
  cases sees with
  | block short => exact ⟨rfl, rfl⟩
  | externalBlock => exact ⟨rfl, rfl⟩
  | attachedBlock found inside => simp [blockBytes, found, ImObject.bytes?]

theorem answerString_of_string {floating : Floating} {attached : Attached (ImObject Owned)}
    {bucket : ImVectorBucket Owned} {bytes : List UInt8}
    (sees : Sees attached bucket (.string bytes)) (size : Nat) :
    answerString floating derefOwned attached size bucket.value =
      some (some (cString (size - 1) bytes)) := by
  have content := stringBytes_of_sees sees
  cases sees with
  | string short => rfl
  | externalString => rfl
  | attachedString found inside => simp [answerString, content]

theorem cString_text {bytes : List UInt8} {limit : Nat} (room : (text bytes).length ≤ limit) :
    cString limit (text bytes ++ [0]) = text bytes := by
  have allNonzero : ∀ byte ∈ text bytes, (byte != 0) = true := by
    intro byte member
    simpa using List.mem_takeWhile_imp member
  rcases Nat.eq_or_lt_of_le room with exact_ | more
  · rw [cString, ← exact_, List.take_left, List.takeWhile_eq_self_iff.mpr allNonzero]
  · rw [cString, List.take_of_length_le (by simp; omega),
      List.takeWhile_append_of_pos allNonzero]
    simp

end Getters

/-- The getters' answers for a key whose last setter stored the given value: the
getter of its type returns exactly this value, and without a value every getter
fails. -/
def Answers (floating : Floating) (table : ImHashtable Owned) (key : List UInt8) :
    Option Value → Prop
  | none =>
      (∀ type, getDictNum floating derefOwned table key type = some none) ∧
      (∀ size, getDictString floating derefOwned table key size = some none) ∧
      ∀ size, getDictBlock derefOwned table key size = some none
  | some (.num type value) =>
      getDictNum floating derefOwned table key type = some (some value)
  | some (.string bytes) => ∀ size : Int, (text bytes).length < size →
      getDictString floating derefOwned table key size = some (some (text bytes))
  | some (.block bytes) => ∀ size : Int, 0 < size → bytes.length ≤ size →
      getDictBlock derefOwned table key size = some (some bytes)

/-- The bucket of a stored value. -/
theorem Stores.retrieve {table : ImHashtable Owned} {values : List UInt8 → Option Value}
    (stores : Stores table values) {key : List UInt8} {value : Value}
    (known : values (cString keyMaxLength key) = some value) :
    ∃ entry, imRetrieveElementByKey table key = some (some entry) ∧
      Sees table.extra entry.toImVectorBucket value.seen := by
  obtain ⟨entry, holds⟩ := stores.found _ value known
  obtain ⟨stored, again, sees⟩ := stores.held _ entry holds
  obtain rfl : value = stored := Option.some.inj (known.symm.trans again)
  exact ⟨entry, retrieve_of_holds stores.inv holds, sees⟩

theorem Stores.answers {table : ImHashtable Owned} {values : List UInt8 → Option Value}
    (stores : Stores table values) (floating : Floating) (key : List UInt8) :
    Answers floating table key (values (cString keyMaxLength key)) := by
  cases known : values (cString keyMaxLength key) with
  | none =>
      have absent (entry : ImHashBucket Owned) :
          ¬ table.Holds (imOps Owned) (cString keyMaxLength key) entry := by
        intro holds
        obtain ⟨value, stored, -⟩ := stores.held _ entry holds
        rw [known] at stored
        cases stored
      have missing := retrieve_of_absent stores.inv absent
      refine ⟨?_, ?_, ?_⟩
      · intro type
        simp [getDictNum, withElement, missing]
      · intro size
        simp [getDictString, withElement, missing]
      · intro size
        simp [getDictBlock, withElement, missing]
  | some value =>
      obtain ⟨entry, retrieved, sees⟩ := stores.retrieve known
      cases value with
      | num type value =>
          obtain ⟨⟨length, bucketValue⟩, keyBytes⟩ := entry
          cases sees
          simp [Answers, getDictNum, withElement, retrieved, answerNum]
      | string bytes =>
          intro size large
          have positive : ¬ size ≤ 0 := by omega
          rw [getDictString, if_neg positive, withElement, retrieved, Option.bind_some]
          refine (answerString_of_string sees size.toNat).trans ?_
          rw [cString_text (by omega)]
      | block bytes =>
          intro size positive large
          obtain ⟨content, length_eq⟩ := blockBytes_of_sees sees
          have whole : min size.toNat bytes.length = bytes.length := by omega
          simp [getDictBlock, not_le.mpr positive, withElement, retrieved, answerBlock, content,
            length_eq, whole]

/-- Every call that a run may make ends, and the dictionary again stores the
values last set. -/
theorem Stores.call {table : ImHashtable Owned} {calls : List DictCall}
    (stores : Stores table (lastSet calls)) {call : DictCall}
    (admissible : Admissible table call) :
    ∃ after code, performCall table call = some (after, code) ∧
      Stores after (lastSet (call :: calls)) := by
  cases call with
  | set key value last =>
      obtain ⟨after, code, performed, -, afterStores⟩ :=
        stores.set key last admissible.1 admissible.2
      exact ⟨after, code, performed, afterStores⟩
  | delete key => exact stores.delete key
  | clear =>
      obtain ⟨cleared, clearedStores⟩ := stores.clear
      exact ⟨_, 0, by simp [performCall, cleared], clearedStores⟩
  | serialize fuel => exact stores.serialize fuel

theorem Run.stores {capacity : Int} {calls : List DictCall} {table : ImHashtable Owned}
    (run : Run capacity calls table) : Stores table (lastSet calls) := by
  induction run with
  | init created =>
      simp only [initDict] at created
      split at created
      · cases created
      · cases created
        obtain ⟨inv, empty⟩ := Table.create_inv (imOps Owned) capacity Attached.none
        exact ⟨inv, Area.separated_empty, by simp [lastSet], fun name entry holds =>
          absurd holds (empty name entry)⟩
  | call call _ admissible performed ih =>
      obtain ⟨after, code, again, afterStores⟩ := ih.call admissible
      rw [performed] at again
      cases again
      exact afterStores

/-- Over every run a dictionary is the finite map of the values last set, and
every further call of the run ends. -/
theorem run_answers_lastSet {capacity : Int} {calls : List DictCall}
    {table : ImHashtable Owned} (run : Run capacity calls table) :
    (∀ floating key,
      Answers floating table key (lastSet calls (cString keyMaxLength key))) ∧
    ∀ call, Admissible table call → (performCall table call).isSome := by
  refine ⟨fun floating key => run.stores.answers floating key, ?_⟩
  intro call admissible
  obtain ⟨after, code, performed, -⟩ := run.stores.call admissible
  simp [performed]

/-- A string too long for its bucket, read back after serialisation. -/
theorem run_answers_lastSet_string :
    ∃ table, Run 0 [.serialize 0, .set [107] (.string (List.replicate 20 97)) 0] table ∧
      ∀ floating, getDictString floating derefOwned table [107] 21 =
        some (some (List.replicate 20 97)) := by
  have begin : Run 0 [] (imInitializeHashtable 0) := .init rfl
  have admissible : Admissible (imInitializeHashtable 0)
      (.set [107] (.string (List.replicate 20 97)) 0) := by
    refine ⟨by simp [Value.Storable, text, objectLimit], ?_⟩
    simp [getDictNElement, imInitializeHashtable, Table.create]
  obtain ⟨table, code, performed, -⟩ := begin.stores.call admissible
  have middle := Run.call _ begin admissible performed
  obtain ⟨after, length, serialized, -⟩ := middle.stores.serialize 0
  have run : Run 0 [.serialize 0, .set [107] (.string (List.replicate 20 97)) 0] after :=
    .call (.serialize 0) middle trivial serialized
  exact ⟨after, run, fun floating => (run_answers_lastSet run).1 floating [107] 21 (by decide)⟩

end FrameCode.Beai3Dict
