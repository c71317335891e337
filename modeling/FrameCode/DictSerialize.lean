import FrameCode.DictMap
import FrameCode.ImSerialized

/-!
# Dictionaries of any depth

The dictionaries and arrays that the calls of the interface build, and what
`SerializeDict` does to them: every getter, through any chain of nested objects,
answers as before, the result is one compact block, and serialising it again
changes nothing.
-/

namespace FrameCode.Beai3Dict

open OpenAddressing RegionMemory ImTypes ImHashtable ImVector ImSerialize MachineInt PrimeTable

/-! ## Building dictionaries and arrays -/

/-- The dictionaries and arrays that calls build from fresh ones.  The object
passed to `SetDictDict`, `SetDictArray` or `AddArrayDict` becomes a part of the
object that it is stored in. -/
inductive Built : Kind → ImObject Owned → Prop
  | initDict {capacity : Int} {table : ImHashtable Owned}
      (created : initDict capacity = some table) : Built .nested (.hashtable table)
  | initArray {capacity : Int} {vector : ImVector Owned}
      (created : initArray capacity = some vector) : Built .vector (.vector vector)
  | setNum {table after : ImHashtable Owned} {code : Int} {type : NumType} {key : List UInt8}
      {value : BitVec type.bits} (before : Built .nested (.hashtable table))
      (set : setDictNum owned type table key value = some (after, code)) :
      Built .nested (.hashtable after)
  | setString {table after : ImHashtable Owned} {code : Int} {last : UInt8}
      {key value : List UInt8} (before : Built .nested (.hashtable table))
      (set : setDictString owned last table key value = some (after, code)) :
      Built .nested (.hashtable after)
  | setBlock {table after : ImHashtable Owned} {code : Int} {last : UInt8}
      {key value : List UInt8} {size : Int} (before : Built .nested (.hashtable table))
      (set : setDictBlock owned last table key value size = some (after, code)) :
      Built .nested (.hashtable after)
  | setDict {table after : ImHashtable Owned} {code : Int} {key : List UInt8}
      {child : ImObject Owned} (before : Built .nested (.hashtable table))
      (childBuilt : Built .nested child)
      (set : setDictDict owned table key (.alloc child) = some (after, code)) :
      Built .nested (.hashtable after)
  | setArray {table after : ImHashtable Owned} {code : Int} {key : List UInt8}
      {child : ImObject Owned} (before : Built .nested (.hashtable table))
      (childBuilt : Built .vector child)
      (set : setDictArray owned table key (.alloc child) = some (after, code)) :
      Built .nested (.hashtable after)
  | addDict {vector after : ImVector Owned} {code : Int} {child : ImObject Owned}
      (before : Built .vector (.vector vector)) (childBuilt : Built .nested child)
      (added : addArrayDict owned vector (.alloc child) = some (after, code)) :
      Built .vector (.vector after)
  | delete {table after : ImHashtable Owned} {code : Int} {key : List UInt8}
      (before : Built .nested (.hashtable table))
      (deleted : deleteDict owned table key = some (after, code)) :
      Built .nested (.hashtable after)
  | serialize {table after : ImHashtable Owned} {code : Int} {fuel : Nat}
      (before : Built .nested (.hashtable table)) (small : Small (.hashtable table))
      (serialized : serializeDict fuel table = some (after, code)) :
      Built .nested (.hashtable after)

/-- The bucket can be read, and so can the object nested in it. -/
def Stored (attached : Attached (ImObject Owned)) (bucket : ImVectorBucket Owned) : Prop :=
  ∃ seen, Sees attached bucket seen ∧
    ∀ kind object, seen = .nested kind object → Formed kind object

theorem Stored.carry {attached : Attached (ImObject Owned)} {bucket : ImVectorBucket Owned}
    (stored : Stored attached bucket) (times : Nat) :
    Stored (Attached.carry^[times] attached) bucket := by
  induction times with
  | zero => exact stored
  | succ times ih =>
      obtain ⟨seen, sees, nested⟩ := ih
      rw [Function.iterate_succ_apply']
      exact ⟨seen, sees.carry, nested⟩

theorem stored_of_isPlain {attached : Attached (ImObject Owned)} {length : Nat}
    {value : ImValue Owned} (isPlain : IsPlain value) : Stored attached ⟨length, value⟩ :=
  ⟨.plain value, .plain isPlain, nofun⟩

theorem separated_carry {attached : Attached (ImObject Owned)}
    (separated : Area.Separated ImObject.size attached.area) (times : Nat) :
    Area.Separated ImObject.size (Attached.carry^[times] attached).area := by
  induction times with
  | zero => exact separated
  | succ times ih =>
      rw [Function.iterate_succ_apply']
      exact ih.clip _

theorem exists_image {α β : Type} {related : α → β → Prop} {items : List α} {images : List β}
    (each : List.Forall₂ related items images) {item : α} (member : item ∈ items) :
    ∃ image ∈ images, related item image := by
  induction each with
  | nil => cases member
  | cons first _ ih =>
      rcases List.mem_cons.mp member with rfl | later
      · exact ⟨_, by simp, first⟩
      · obtain ⟨image, imageMember, holds⟩ := ih later
        exact ⟨image, by simp [imageMember], holds⟩

theorem exists_seens {attached : Attached (ImObject Owned)}
    {buckets : List (ImVectorBucket Owned)}
    (stored : ∀ bucket ∈ buckets, Stored attached bucket) :
    ∃ seens, List.Forall₂ (Sees attached) buckets seens ∧
      ∀ kind object, Seen.nested kind object ∈ seens → Formed kind object := by
  obtain ⟨seens, related⟩ := exists_forall₂ stored
  refine ⟨seens, related.imp fun _ _ each => each.1, ?_⟩
  intro kind object member
  obtain ⟨bucket, -, -, nested⟩ := exists_image related.flip member
  exact nested kind object rfl

theorem stored_of_seens {attached : Attached (ImObject Owned)}
    {buckets : List (ImVectorBucket Owned)} {seens : List Seen}
    (sees : List.Forall₂ (Sees attached) buckets seens)
    (children : ∀ kind object, Seen.nested kind object ∈ seens → Formed kind object)
    {bucket : ImVectorBucket Owned} (member : bucket ∈ buckets) : Stored attached bucket := by
  obtain ⟨seen, seenMember, holds⟩ := exists_image sees member
  exact ⟨seen, holds, fun kind object same => children kind object (same ▸ seenMember)⟩

theorem formed_hashtable {table : ImHashtable Owned} :
    Formed .nested (.hashtable table) ↔
      Area.Separated ImObject.size table.extra.area ∧
      ∀ bucket ∈ table.buckets, Stored table.extra bucket.toImVectorBucket := by
  constructor
  · intro formed
    cases formed with
    | hashtable separated sees children =>
        refine ⟨separated, fun bucket member => stored_of_seens sees children ?_⟩
        exact List.mem_map.mpr ⟨bucket, member, rfl⟩
  · rintro ⟨separated, stored⟩
    have parts : ∀ part ∈ commonParts table, Stored table.extra part := by
      intro part member
      obtain ⟨bucket, bucketMember, rfl⟩ := List.mem_map.mp member
      exact stored bucket bucketMember
    obtain ⟨seens, sees, children⟩ := exists_seens parts
    exact .hashtable separated sees children

theorem formed_vector {vector : ImVector Owned} :
    Formed .vector (.vector vector) ↔
      Sized vector ∧ Area.Separated ImObject.size vector.attached.area ∧
      ∀ bucket ∈ usedBuckets vector, Stored vector.attached bucket := by
  constructor
  · intro formed
    cases formed with
    | vector sized separated sees children =>
        exact ⟨sized, separated, fun bucket member => stored_of_seens sees children member⟩
  · rintro ⟨sized, separated, stored⟩
    obtain ⟨seens, sees, children⟩ := exists_seens stored
    exact .vector sized separated sees children

/-! ### Every call keeps objects readable -/

section Calls

variable {table after : ImHashtable Owned} {key : List UInt8} {code : Int}

theorem formed_of_stems {added : ImHashBucket Owned → Prop}
    (formed : Formed .nested (.hashtable table))
    (stems : Table.StemsFrom (imOps Owned) table after added)
    (new : ∀ bucket, added bucket → ∀ attached, Stored attached bucket.toImVectorBucket) :
    Formed .nested (.hashtable after) := by
  obtain ⟨separated, stored⟩ := formed_hashtable.mp formed
  obtain ⟨times, extra⟩ := stems.extra
  rw [formed_hashtable, extra]
  refine ⟨separated_carry separated times, ?_⟩
  intro bucket member
  rcases stems.buckets bucket member with rfl | isNew | old
  · exact stored_of_isPlain trivial
  · exact new bucket isNew _
  · exact (stored bucket old).carry times

theorem formed_delete (formed : Formed .nested (.hashtable table)) (position : Nat) :
    Formed .nested (.hashtable (imDeleteElement table position).1) := by
  obtain ⟨separated, stored⟩ := formed_hashtable.mp formed
  obtain ⟨⟨deleted, result⟩, deletedEq⟩ :
      ∃ deleted, table.delete (imOps Owned) position = deleted := ⟨_, rfl⟩
  obtain ⟨extra, members⟩ := Table.delete_stems deletedEq
  simp only [imDeleteElement, deletedEq]
  rw [formed_hashtable, extra]
  refine ⟨separated, fun bucket member => ?_⟩
  rcases members bucket member with erased | old
  · have dead : IsPlain bucket.value := by
      rw [erased]
      trivial
    exact stored_of_isPlain dead
  · exact stored bucket old

theorem formed_deleteElement (formed : Formed .nested (.hashtable table)) {position : Nat}
    (deleted : deleteElement owned table position = some (after, code)) :
    Formed .nested (.hashtable after) := by
  have same : imDeleteElement table position = (after, code) := by
    unfold deleteElement at deleted
    split at deleted
    · simpa using deleted
    · simp only [Option.bind_eq_bind, Option.bind_eq_some_iff] at deleted
      obtain ⟨-, -, final⟩ := deleted
      exact Option.some.inj final
  have kept := formed_delete formed position
  rwa [same] at kept

theorem formed_deleteDict (formed : Formed .nested (.hashtable table))
    (deleted : deleteDict owned table key = some (after, code)) :
    Formed .nested (.hashtable after) := by
  simp only [deleteDict, owned_lift, Option.bind_eq_bind, Option.bind_eq_some_iff] at deleted
  obtain ⟨position, -, final⟩ := deleted
  exact formed_deleteElement formed final

theorem formed_replaceElement (formed : Formed .nested (.hashtable table))
    {prepare : Option (Option (ImHashBucket Owned))}
    (new : ∀ bucket, prepare = some (some bucket) →
      ∀ attached, Stored attached bucket.toImVectorBucket)
    (replaced : replaceElement owned table key prepare = some (after, code)) :
    Formed .nested (.hashtable after) := by
  simp only [replaceElement, owned_lift, Option.bind_eq_bind, Option.bind_eq_some_iff] at replaced
  obtain ⟨position, -, ⟨deleted, deletedCode⟩, deletedEq, prepared, prepareEq, final⟩ := replaced
  have deletedFormed := formed_deleteElement formed deletedEq
  cases prepared with
  | none =>
      cases final
      exact deletedFormed
  | some bucket =>
      simp only [imInsertElement, Option.map_eq_some_iff, Prod.mk.injEq] at final
      obtain ⟨⟨inserted, place⟩, insertedEq, rfl, -⟩ := final
      refine formed_of_stems deletedFormed (Table.insert_stems insertedEq) ?_
      intro other same attached
      rw [same]
      exact new bucket prepareEq attached

theorem stored_storeBytes {inlined : List UInt8 → ImValue Owned}
    {external : Nat → Owned → ImValue Owned} {seen : Seen} {keyBytes bytes : List UInt8}
    (seesInlined : ∀ attached, bytes.length ≤ sizeofImValue →
      Sees attached ⟨bytes.length, inlined bytes⟩ seen)
    (seesExternal : ∀ attached size,
      Sees attached ⟨bytes.length, external size (.alloc (.bytes bytes))⟩ seen)
    (flat : ∀ kind object, seen ≠ .nested kind object) {bucket : ImHashBucket Owned}
    (prepared : storeBytes owned inlined external keyBytes bytes = some (some bucket))
    (attached : Attached (ImObject Owned)) : Stored attached bucket.toImVectorBucket := by
  refine ⟨seen, ?_, fun kind object same => absurd same (flat kind object)⟩
  unfold storeBytes at prepared
  split at prepared
  · cases prepared
  · split at prepared
    · rename_i short
      cases prepared
      exact seesInlined attached short
    · cases prepared
      exact seesExternal attached _

theorem formed_setDictNum {type : NumType} {value : BitVec type.bits}
    (formed : Formed .nested (.hashtable table))
    (set : setDictNum owned type table key value = some (after, code)) :
    Formed .nested (.hashtable after) := by
  refine formed_replaceElement formed ?_ set
  rintro bucket prepared attached
  cases prepared
  exact stored_of_isPlain trivial

theorem formed_setDictString {last : UInt8} {value : List UInt8}
    (formed : Formed .nested (.hashtable table))
    (set : setDictString owned last table key value = some (after, code)) :
    Formed .nested (.hashtable after) :=
  formed_replaceElement formed (fun _ prepared attached =>
    stored_storeBytes (fun _ short => .string short) (fun _ _ => .externalString)
      (fun _ _ => nofun) prepared attached) set

theorem formed_setDictBlock {last : UInt8} {value : List UInt8} {size : Int}
    (formed : Formed .nested (.hashtable table))
    (set : setDictBlock owned last table key value size = some (after, code)) :
    Formed .nested (.hashtable after) := by
  unfold setDictBlock at set
  split at set
  · cases set
    exact formed
  · split at set
    · cases set
    · exact formed_replaceElement formed (fun _ prepared attached =>
        stored_storeBytes (fun _ short => .block short) (fun _ _ => .externalBlock)
          (fun _ _ => nofun) prepared attached) set

theorem formed_setDictDict {child : ImObject Owned} (formed : Formed .nested (.hashtable table))
    (childFormed : Formed .nested child)
    (set : setDictDict owned table key (.alloc child) = some (after, code)) :
    Formed .nested (.hashtable after) := by
  cases childFormed with
  | @hashtable childTable seens separated sees children =>
      refine formed_replaceElement formed ?_ set
      intro bucket prepared attached
      obtain ⟨part, partEq, rfl⟩ := Option.map_eq_some_iff.mp (Option.some.inj prepared)
      unfold nestedBucket at partEq
      split at partEq <;> cases partEq
      refine ⟨.nested .nested _, .externalNested, ?_⟩
      rintro _ _ ⟨⟩
      exact .hashtable separated sees children

theorem formed_setDictArray {child : ImObject Owned} (formed : Formed .nested (.hashtable table))
    (childFormed : Formed .vector child)
    (set : setDictArray owned table key (.alloc child) = some (after, code)) :
    Formed .nested (.hashtable after) := by
  cases childFormed with
  | @vector childVector seens sized separated sees children =>
      refine formed_replaceElement formed ?_ set
      intro bucket prepared attached
      obtain ⟨part, partEq, rfl⟩ := Option.map_eq_some_iff.mp (Option.some.inj prepared)
      unfold nestedBucket at partEq
      split at partEq <;> cases partEq
      refine ⟨.nested .vector _, .externalVector, ?_⟩
      rintro _ _ ⟨⟩
      exact .vector sized separated sees children

theorem formed_addArrayDict {vector afterVector : ImVector Owned} {child : ImObject Owned}
    (formed : Formed .vector (.vector vector)) (childFormed : Formed .nested child)
    (added : addArrayDict owned vector (.alloc child) = some (afterVector, code)) :
    Formed .vector (.vector afterVector) := by
  obtain ⟨sized, separated, stored⟩ := formed_vector.mp formed
  cases childFormed with
  | @hashtable childTable seens childSeparated sees children =>
      simp only [addArrayDict, owned_read, Owned.content, Option.bind_eq_bind,
        Option.bind_some] at added
      split at added
      · cases added
        exact formed
      · rename_i bucket bucketEq
        have stems := imAddElement_stems sized (owned_lift _ ▸ added)
        obtain ⟨times, attached⟩ := stems.attached
        rw [formed_vector, attached]
        refine ⟨stems.sized, separated_carry separated times, ?_⟩
        intro other member
        rcases stems.buckets other member with rfl | old
        · unfold nestedBucket at bucketEq
          split at bucketEq <;> cases bucketEq
          refine ⟨.nested .nested _, .externalNested, ?_⟩
          rintro _ _ ⟨⟩
          exact .hashtable childSeparated sees children
        · exact (stored other old).carry times

end Calls

theorem serializeDict_mono {table : ImHashtable Owned} {fuel larger : Nat} (le : fuel ≤ larger)
    {result : ImHashtable Owned × Int} (serialized : serializeDict fuel table = some result) :
    serializeDict larger table = some result :=
  serializeTable_mono (fun _ _ _ => serializeObject_mono le) serialized

/-- The serialiser of nested objects runs `SerializeDict` on a dictionary. -/
theorem serializeDict_of_object {table after : ImHashtable Owned} {fuel : Nat} {code : Int}
    (serialized : serializeObject owned (fuel + 1) .nested (.alloc (.hashtable table)) =
      some (Owned.alloc (.hashtable after), code)) :
    serializeDict fuel table = some (after, code) := by
  rw [serializeObject] at serialized
  simp only [owned_read, Owned.content, Option.bind_eq_bind, Option.bind_some,
    Option.bind_eq_some_iff] at serialized
  obtain ⟨⟨done, doneCode⟩, serializedEq, moved, movedEq, final⟩ := serialized
  cases movedEq
  obtain ⟨same, rfl⟩ := Prod.mk.inj (Option.some.inj final)
  obtain rfl : done = after := ImObject.hashtable.inj (Owned.alloc.inj same)
  exact serializedEq

/-- Serialising a dictionary that can be read ends, whatever the depth of the
nesting. -/
theorem exists_serializeDict {table : ImHashtable Owned}
    (formed : Formed .nested (.hashtable table)) (small : Small (.hashtable table)) :
    ∃ after : ImHashtable Owned, Serialized .nested (.hashtable table) (.hashtable after) ∧
      ∃ depth, ∀ fuel, depth ≤ fuel → serializeDict fuel table = some (after,
        ((hashSize after.numberOfBuckets + after.extra.attachedSize : Nat) : Int)) := by
  obtain ⟨object, serialized, depth, ends⟩ := formed.serialized small
  obtain ⟨after, rfl⟩ : ∃ after, object = .hashtable after := by
    cases serialized
    exact ⟨_, rfl⟩
  exact ⟨after, serialized, depth, fun fuel le =>
    serializeDict_of_object (ends (fuel + 1) (Nat.le_succ_of_le le)).1⟩

theorem fixed_serializeDict {table after : ImHashtable Owned}
    (serialized : Serialized .nested (.hashtable table) (.hashtable after)) :
    ∃ depth, ∀ fuel, depth ≤ fuel → serializeDict fuel after =
      some (after, ((hashSize after.numberOfBuckets + after.extra.attachedSize : Nat) : Int)) := by
  obtain ⟨depth, fixed⟩ := serialized.fixed
  exact ⟨depth, fun fuel le => serializeDict_of_object (fixed (fuel + 1) (Nat.le_succ_of_le le))⟩

theorem Built.formed {kind : Kind} {object : ImObject Owned} (built : Built kind object) :
    Formed kind object := by
  induction built with
  | initDict created =>
      unfold Beai3Dict.initDict at created
      split at created <;> cases created
      refine formed_hashtable.mpr ⟨Area.separated_empty, fun bucket member => ?_⟩
      rw [List.eq_of_mem_replicate member]
      exact stored_of_isPlain trivial
  | initArray created =>
      unfold Beai3Dict.initArray at created
      split at created <;> cases created
      exact formed_vector.mpr ⟨imInitializeVector_sized _, Area.separated_empty, by
        simp [usedBuckets, imInitializeVector]⟩
  | setNum _ set ih => exact formed_setDictNum ih set
  | setString _ set ih => exact formed_setDictString ih set
  | setBlock _ set ih => exact formed_setDictBlock ih set
  | setDict _ _ set ih childFormed => exact formed_setDictDict ih childFormed set
  | setArray _ _ set ih childFormed => exact formed_setDictArray ih childFormed set
  | addDict _ _ added ih childFormed => exact formed_addArrayDict ih childFormed added
  | delete _ deleted ih => exact formed_deleteDict ih deleted
  | @serialize table after code fuel _ small serialized ih =>
      obtain ⟨result, resultSerialized, depth, ends⟩ := exists_serializeDict ih small
      have again := serializeDict_mono (le_max_right depth fuel) serialized
      rw [ends _ (le_max_left depth fuel)] at again
      cases again
      exact resultSerialized.formed

/-! ## Getters through nested objects -/

/-- A getter of a nested object. -/
inductive Hop
  | dict (key : List UInt8)
  | array (key : List UInt8)
  | element (index : Int)

/-- A getter of a value. -/
inductive Query
  | num (key : List UInt8) (target : NumType)
  | string (key : List UInt8) (size : Int)
  | block (key : List UInt8) (size : Int)
  | nElement
  | keyv (keyc : Int)
  | arrayLength

inductive Answer
  | num (type : NumType) (value : BitVec type.bits)
  | bytes (content : List UInt8)
  | count (number : Nat)
  | keys (fields : List (List UInt8))

section Get

variable (floating : Floating) (deref : Owned → Option (ImObject Owned))

/-- The object behind a fetched handle, if there is one. -/
def reach (attached : Attached (ImObject Owned)) (place : Option (Place Owned)) :
    Option (Option (ImObject Owned)) :=
  match place with
  | none => some none
  | some place => (resolve deref attached place).map some

/-- `GetDictDict`, `GetDictArray` or `GetArrayDict` on a handle; the outer `none`
is a call without a defined result. -/
def hop (object : ImObject Owned) : Hop → Option (Option (ImObject Owned))
  | .dict key =>
      match object with
      | .hashtable table => (getDictDict table key).bind (reach deref table.extra)
      | _ => none
  | .array key =>
      match object with
      | .hashtable table => (getDictArray table key).bind (reach deref table.extra)
      | _ => none
  | .element index =>
      match object with
      | .vector vector => reach deref vector.attached (getArrayDict vector index)
      | _ => none

/-- Fetch handle after handle, until a call fails. -/
def follow : List Hop → ImObject Owned → Option (Option (ImObject Owned))
  | [], object => some (some object)
  | step :: rest, object =>
      (hop deref object step).bind fun found =>
        match found with
        | none => some none
        | some next => follow rest next

def ask (object : ImObject Owned) : Query → Option (Option Answer)
  | .num key target =>
      match object with
      | .hashtable table =>
          (getDictNum floating deref table key target).map (Option.map (.num target))
      | _ => none
  | .string key size =>
      match object with
      | .hashtable table => (getDictString floating deref table key size).map (Option.map .bytes)
      | _ => none
  | .block key size =>
      match object with
      | .hashtable table => (getDictBlock deref table key size).map (Option.map .bytes)
      | _ => none
  | .nElement =>
      match object with
      | .hashtable table => some (some (.count (getDictNElement table)))
      | _ => none
  | .keyv keyc =>
      match object with
      | .hashtable table => some (some (.keys (getDictKeyv table keyc)))
      | _ => none
  | .arrayLength =>
      match object with
      | .vector vector => some (some (.count (getArrayLength vector)))
      | _ => none

/-- The answer of a getter on the object that a chain of handles leads to. -/
def get (path : List Hop) (query : Query) (object : ImObject Owned) : Option (Option Answer) :=
  (follow deref path object).bind fun found =>
    match found with
    | none => some none
    | some target => ask floating deref target query

end Get

/-! ### What a bucket answers -/

section Buckets

variable {attached : Attached (ImObject Owned)} {bucket : ImVectorBucket Owned} {seen : Seen}

def seenStatus : Seen → Status
  | .plain value => value.status
  | _ => .live

def seenNum (floating : Floating) (target : NumType) : Seen → Option (BitVec target.bits)
  | .plain (.num source value) => some (convertNum floating source target value)
  | .string bytes => some (parseNum floating target bytes)
  | _ => none

def seenString (floating : Floating) (size : Nat) : Seen → Option (List UInt8)
  | .plain (.num source value) => some ((formatNum floating source value).take (size - 1))
  | .string bytes => some (cString (size - 1) bytes)
  | _ => none

def seenBlock (size : Nat) : Seen → Option (List UInt8)
  | .block bytes => some (bytes.take (min size bytes.length))
  | _ => none

def seenObject (kind : Kind) : Seen → Option (ImObject Owned)
  | .nested found object => if found = kind then some object else none
  | _ => none

theorem status_of_sees (sees : Sees attached bucket seen) :
    bucket.value.status = seenStatus seen := by
  cases sees <;> rfl

theorem answerNum_of_sees (floating : Floating) (target : NumType)
    (sees : Sees attached bucket seen) :
    answerNum floating derefOwned attached target bucket.value =
      some (seenNum floating target seen) := by
  cases sees with
  | @plain _ value isPlain => cases value <;> first | rfl | cases isPlain
  | attachedString found => simp [answerNum, stringBytes, found, ImObject.bytes?, seenNum]
  | _ => rfl

theorem answerString_of_sees (floating : Floating) (size : Nat)
    (sees : Sees attached bucket seen) :
    answerString floating derefOwned attached size bucket.value =
      some (seenString floating size seen) := by
  cases sees with
  | @plain _ value isPlain => cases value <;> first | rfl | cases isPlain
  | attachedString found => simp [answerString, stringBytes, found, ImObject.bytes?, seenString]
  | _ => rfl

theorem answerBlock_of_sees (size : Nat) (sees : Sees attached bucket seen) :
    answerBlock derefOwned attached size bucket = some (seenBlock size seen) := by
  have ofBlock {bytes : List UInt8} (isBlock : Sees attached bucket (.block bytes)) :
      answerBlock derefOwned attached size bucket = some (seenBlock size (.block bytes)) := by
    obtain ⟨content, length_eq⟩ := blockBytes_of_sees isBlock
    simp [answerBlock, content, length_eq, seenBlock]
  cases seen with
  | block bytes => exact ofBlock sees
  | plain value =>
      cases sees with
      | plain isPlain => cases value <;> first | rfl | cases isPlain
  | string bytes => cases sees <;> rfl
  | nested kind object => cases sees <;> rfl

theorem reach_of_sees (kind : Kind) (sees : Sees attached bucket seen) :
    reach derefOwned attached (nestedPlace kind bucket.value) = some (seenObject kind seen) := by
  cases sees with
  | @plain _ value isPlain => cases value <;> first | rfl | cases isPlain
  | externalNested | externalVector => cases kind <;> rfl
  | attachedNested found | attachedVector found =>
      cases kind <;> simp [nestedPlace, reach, resolve, found, seenObject]
  | _ => rfl

end Buckets

/-! ### Serialising keeps every answer -/

section Twins

variable {table after : ImHashtable Owned} {seens seens' : List Seen}

/-- Two dictionaries with the same keys whose buckets stand for values of the
same form. -/
structure Twins (table after : ImHashtable Owned) (seens seens' : List Seen) : Prop where
  size_eq : after.numberOfBuckets = table.numberOfBuckets
  keys_eq : after.buckets.map ImHashBucket.key = table.buckets.map ImHashBucket.key
  sees : List.Forall₂ (Sees table.extra) (commonParts table) seens
  seesAfter : List.Forall₂ (Sees after.extra) (commonParts after) seens'
  shapes : List.Forall₂ SameShape seens seens'

theorem seenStatus_eq {seen seen' : Seen} (shape : SameShape seen seen') :
    seenStatus seen' = seenStatus seen := by
  cases shape <;> rfl

theorem Twins.length_eq (twins : Twins table after seens seens') :
    after.buckets.length = table.buckets.length := by
  simpa using congrArg List.length twins.keys_eq

/-- The buckets at one position of two twins. -/
theorem Twins.at (twins : Twins table after seens seens') {i : Nat}
    (inside : i < table.buckets.length) (insideAfter : i < after.buckets.length) :
    ∃ seen seen', Sees table.extra table.buckets[i].toImVectorBucket seen ∧
      Sees after.extra after.buckets[i].toImVectorBucket seen' ∧ SameShape seen seen' ∧
      (seen, seen') ∈ seens.zip seens' := by
  have bound : i < seens.length := by
    rw [← twins.sees.length_eq]
    simpa [commonParts] using inside
  have boundAfter : i < seens'.length := twins.shapes.length_eq ▸ bound
  refine ⟨seens[i], seens'[i], (List.forall₂_map_left_iff.mp twins.sees).get inside bound,
    (List.forall₂_map_left_iff.mp twins.seesAfter).get insideAfter boundAfter,
    twins.shapes.get bound boundAfter, ?_⟩
  exact List.mem_iff_getElem.mpr ⟨i, by simp [bound, boundAfter], by simp⟩

theorem Twins.similar (twins : Twins table after seens seens') :
    List.Forall₂ (fun old new => (imOps Owned).status new = (imOps Owned).status old ∧
      (imOps Owned).key new = (imOps Owned).key old) table.buckets after.buckets := by
  refine List.forall₂_iff_get.mpr ⟨twins.length_eq.symm, fun i inside insideAfter => ?_⟩
  obtain ⟨seen, seen', sees, seesAfter, shape, -⟩ := twins.at inside insideAfter
  have sameKey : after.buckets[i].key = table.buckets[i].key := by
    have mapped := congrArg (·[i]?) twins.keys_eq
    simpa [inside, insideAfter] using mapped
  refine ⟨?_, congrArg (cString keyMaxLength) sameKey⟩
  exact (status_of_sees seesAfter).trans ((seenStatus_eq shape).trans (status_of_sees sees).symm)

/-- Two getters that agree on every bucket agree on twins. -/
theorem Twins.related_withElement {α β : Type}
    (related : Option (Option α) → Option (Option β) → Prop) (undefined : related none none)
    (absent : related (some none) (some none)) (twins : Twins table after seens seens')
    (key : List UInt8) {answer : ImHashBucket Owned → Option (Option α)}
    {answerAfter : ImHashBucket Owned → Option (Option β)}
    (agree : ∀ bucket bucket' seen seen', Sees table.extra bucket.toImVectorBucket seen →
      Sees after.extra bucket'.toImVectorBucket seen' → SameShape seen seen' →
      (seen, seen') ∈ seens.zip seens' → related (answer bucket) (answerAfter bucket')) :
    related (withElement table key answer) (withElement after key answerAfter) := by
  have sameFind := Table.find_similar twins.size_eq twins.similar (cString keyMaxLength key)
  unfold withElement imRetrieveElementByKey imFindElement
  rw [sameFind]
  cases table.find (imOps Owned) (cString keyMaxLength key) with
  | none => exact undefined
  | some position =>
      obtain ⟨sameStatus, -⟩ := Table.slot_similar twins.similar position
      simp only [Option.map_some, Option.bind_some, imRetrieveElement, Table.retrieve, sameStatus]
      by_cases live : (imOps Owned).status (table.slot (imOps Owned) position) = .live
      · have inside : position < table.buckets.length := by
          by_contra outside
          rw [Table.slot, List.getD_eq_default _ _ (not_lt.mp outside)] at live
          cases live
        have insideAfter : position < after.buckets.length := twins.length_eq ▸ inside
        obtain ⟨seen, seen', sees, seesAfter, shape, paired⟩ := twins.at inside insideAfter
        rw [if_pos live, if_pos live, Table.slot_eq_getElem _ inside,
          Table.slot_eq_getElem _ insideAfter]
        exact agree _ _ seen seen' sees seesAfter shape paired
      · rw [if_neg live, if_neg live]
        exact absent

theorem Twins.getDictKeyv_eq (twins : Twins table after seens seens') (keyc : Int) :
    getDictKeyv after keyc = getDictKeyv table keyc := by
  have same : ((after.buckets.filter fun bucket => decide (bucket.value.status = .live)).map
        ImHashBucket.key) =
      (table.buckets.filter fun bucket => decide (bucket.value.status = .live)).map
        ImHashBucket.key := by
    have similar := twins.similar
    have keys_eq := twins.keys_eq
    generalize table.buckets = old at similar keys_eq
    generalize after.buckets = new at similar keys_eq
    induction similar with
    | nil => rfl
    | @cons oldBucket newBucket oldRest newRest first rest ih =>
        rw [List.map_cons, List.map_cons] at keys_eq
        obtain ⟨sameKey, restKeys⟩ := List.cons.inj keys_eq
        have sameStatus : newBucket.value.status = oldBucket.value.status := first.1
        simp only [List.filter_cons, sameStatus]
        split
        · rw [List.map_cons, List.map_cons, sameKey, ih restKeys]
        · exact ih restKeys
  rw [getDictKeyv, getDictKeyv, List.map_take, List.map_take, same]

end Twins

/-- The same outcome of a getter of nested objects, before and after
serialisation. -/
inductive Alike : Option (Option (ImObject Owned)) → Option (Option (ImObject Owned)) → Prop
  | undefined : Alike none none
  | absent : Alike (some none) (some none)
  | found {kind : Kind} {object object' : ImObject Owned}
      (serialized : Serialized kind object object') :
      Alike (some (some object)) (some (some object'))

theorem withElement_bind {α β : Type} (table : ImHashtable Owned) (key : List UInt8)
    (answer : ImHashBucket Owned → Option (Option α)) (next : Option α → Option (Option β))
    (absent : next none = some none) :
    (withElement table key answer).bind next =
      withElement table key fun bucket => (answer bucket).bind next := by
  unfold withElement
  cases imRetrieveElementByKey table key with
  | none => rfl
  | some found =>
      cases found with
      | none => simp [absent]
      | some bucket => rfl

section Answers

variable {seens seens' : List Seen}

theorem alike_seenObject
    (children : ∀ kind object object',
      (Seen.nested kind object, Seen.nested kind object') ∈ seens.zip seens' →
        Serialized kind object object') {seen seen' : Seen} (shape : SameShape seen seen')
    (paired : (seen, seen') ∈ seens.zip seens') (kind : Kind) :
    Alike (some (seenObject kind seen)) (some (seenObject kind seen')) := by
  cases shape with
  | @nested found object object' =>
      by_cases same : found = kind
      · simp only [seenObject, if_pos same]
        exact .found (children found object object' paired)
      · simp only [seenObject, if_neg same]
        exact .absent
  | plain | string | block => exact .absent

theorem Twins.alike {table after : ImHashtable Owned} (twins : Twins table after seens seens')
    (children : ∀ kind object object',
      (Seen.nested kind object, Seen.nested kind object') ∈ seens.zip seens' →
        Serialized kind object object') (key : List UInt8) (kind : Kind) :
    Alike
      ((withElement table key fun bucket => some (nestedPlace kind bucket.value)).bind
        (reach derefOwned table.extra))
      ((withElement after key fun bucket => some (nestedPlace kind bucket.value)).bind
        (reach derefOwned after.extra)) := by
  rw [withElement_bind table key _ (reach derefOwned table.extra) rfl,
    withElement_bind after key _ (reach derefOwned after.extra) rfl]
  refine twins.related_withElement Alike .undefined .absent key ?_
  intro bucket bucket' seen seen' sees seesAfter shape paired
  rw [Option.bind_some, Option.bind_some, reach_of_sees kind sees, reach_of_sees kind seesAfter]
  exact alike_seenObject children shape paired kind

theorem alike_getArrayDict {vector after : ImVector Owned}
    (inuse_eq : after.inuse = vector.inuse)
    (length_eq : after.buckets.length = vector.buckets.length) (sized : Sized vector)
    (sees : List.Forall₂ (Sees vector.attached) (usedBuckets vector) seens)
    (seesAfter : List.Forall₂ (Sees after.attached) (usedBuckets after) seens')
    (shapes : List.Forall₂ SameShape seens seens')
    (children : ∀ kind object object',
      (Seen.nested kind object, Seen.nested kind object') ∈ seens.zip seens' →
        Serialized kind object object') (index : Int) :
    Alike (reach derefOwned vector.attached (getArrayDict vector index))
      (reach derefOwned after.attached (getArrayDict after index)) := by
  unfold getArrayDict imGetElement
  rw [inuse_eq]
  by_cases valid : 0 ≤ index ∧ index < vector.inuse
  · have full := sized.inuse_le
    rw [← sized.length_buckets] at full
    have used : index.toNat < (usedBuckets vector).length := by
      simp only [usedBuckets, List.length_take]
      omega
    have usedAfter : index.toNat < (usedBuckets after).length := by
      simp only [usedBuckets, List.length_take]
      omega
    have inside : index.toNat < vector.buckets.length := by omega
    have insideAfter : index.toNat < after.buckets.length := by omega
    have bound : index.toNat < seens.length := sees.length_eq ▸ used
    have boundAfter : index.toNat < seens'.length := seesAfter.length_eq ▸ usedAfter
    have seesHere := sees.get used bound
    have seesHereAfter := seesAfter.get usedAfter boundAfter
    simp only [usedBuckets, List.get_eq_getElem, List.getElem_take] at seesHere seesHereAfter
    rw [if_pos valid, if_pos valid, List.getElem?_eq_getElem inside,
      List.getElem?_eq_getElem insideAfter, Option.bind_some, Option.bind_some,
      reach_of_sees .nested seesHere, reach_of_sees .nested seesHereAfter]
    refine alike_seenObject children (shapes.get bound boundAfter) ?_ .nested
    exact List.mem_iff_getElem.mpr ⟨index.toNat, by simp [bound, boundAfter], by simp⟩
  · rw [if_neg valid, if_neg valid]
    exact .absent

end Answers

section Serialized

variable {kind : Kind} {object object' : ImObject Owned}

theorem hop_serialized (serialized : Serialized kind object object') (step : Hop) :
    Alike (hop derefOwned object step) (hop derefOwned object' step) := by
  cases serialized with
  | hashtable size_eq inuse_eq keys_eq sees arranged bounded shapes children =>
      have twins : Twins _ _ _ _ := ⟨size_eq, keys_eq, sees, arranged.sees, shapes⟩
      cases step with
      | dict key => exact twins.alike children key .nested
      | array key => exact twins.alike children key .vector
      | element index => exact .undefined
  | vector size_eq inuse_eq length_eq sized sees arranged bounded shapes children =>
      cases step with
      | dict key => exact .undefined
      | array key => exact .undefined
      | element index =>
          exact alike_getArrayDict inuse_eq length_eq sized sees arranged.sees shapes children index

theorem follow_serialized (serialized : Serialized kind object object') (path : List Hop) :
    Alike (follow derefOwned path object) (follow derefOwned path object') := by
  induction path generalizing kind object object' with
  | nil => exact .found serialized
  | cons step rest ih =>
      have alike := hop_serialized serialized step
      simp only [follow]
      generalize hop derefOwned object step = before at alike ⊢
      generalize hop derefOwned object' step = after at alike ⊢
      cases alike with
      | undefined => exact .undefined
      | absent => exact .absent
      | found found => exact ih found

theorem seenNum_eq {seen seen' : Seen} (shape : SameShape seen seen') (floating : Floating)
    (target : NumType) : seenNum floating target seen' = seenNum floating target seen := by
  cases shape <;> rfl

theorem seenString_eq {seen seen' : Seen} (shape : SameShape seen seen') (floating : Floating)
    (size : Nat) : seenString floating size seen' = seenString floating size seen := by
  cases shape <;> rfl

theorem seenBlock_eq {seen seen' : Seen} (shape : SameShape seen seen') (size : Nat) :
    seenBlock size seen' = seenBlock size seen := by
  cases shape <;> rfl

theorem ask_serialized (floating : Floating) (serialized : Serialized kind object object')
    (query : Query) :
    ask floating derefOwned object' query = ask floating derefOwned object query := by
  cases serialized with
  | hashtable size_eq inuse_eq keys_eq sees arranged bounded shapes children =>
      have twins : Twins _ _ _ _ := ⟨size_eq, keys_eq, sees, arranged.sees, shapes⟩
      cases query with
      | num key target =>
          refine congrArg (Option.map (Option.map (Answer.num target))) ?_
          refine twins.related_withElement (fun old new => new = old) rfl rfl key ?_
          intro bucket bucket' seen seen' seesHere seesAfter shape _
          rw [answerNum_of_sees floating target seesHere,
            answerNum_of_sees floating target seesAfter, seenNum_eq shape]
      | string key size =>
          refine congrArg (Option.map (Option.map Answer.bytes)) ?_
          unfold getDictString
          split
          · rfl
          · refine twins.related_withElement (fun old new => new = old) rfl rfl key ?_
            intro bucket bucket' seen seen' seesHere seesAfter shape _
            rw [answerString_of_sees floating _ seesHere,
              answerString_of_sees floating _ seesAfter, seenString_eq shape]
      | block key size =>
          refine congrArg (Option.map (Option.map Answer.bytes)) ?_
          unfold getDictBlock
          split
          · rfl
          · refine twins.related_withElement (fun old new => new = old) rfl rfl key ?_
            intro bucket bucket' seen seen' seesHere seesAfter shape _
            rw [answerBlock_of_sees _ seesHere, answerBlock_of_sees _ seesAfter,
              seenBlock_eq shape]
      | nElement => simp only [ask, getDictNElement, inuse_eq]
      | keyv keyc => simp only [ask, twins.getDictKeyv_eq]
      | arrayLength => rfl
  | vector size_eq inuse_eq length_eq sized sees arranged bounded shapes children =>
      cases query with
      | arrayLength => simp only [ask, getArrayLength, inuse_eq]
      | num | string | block | nElement | keyv => rfl

theorem get_serialized (floating : Floating) (serialized : Serialized kind object object')
    (path : List Hop) (query : Query) :
    get floating derefOwned path query object' = get floating derefOwned path query object := by
  have alike := follow_serialized serialized path
  simp only [get]
  generalize follow derefOwned path object = before at alike ⊢
  generalize follow derefOwned path object' = after at alike ⊢
  cases alike with
  | undefined => rfl
  | absent => rfl
  | found found => exact ask_serialized floating found query

end Serialized

/-! ## Compact objects -/

/-- The objects nested in an object, at any depth. -/
inductive Within (object : ImObject Owned) : ImObject Owned → Prop
  | self : Within object object
  | nested {outer inner : ImObject Owned} {bucket : ImVectorBucket Owned} {kind : Kind}
      {place : Place Owned} (before : Within object outer) (member : bucket ∈ liveBuckets outer)
      (isNested : nestedPlace kind bucket.value = some place)
      (found : resolve derefOwned (attachedOf outer) place = some inner) : Within object inner

theorem nested_of_resolve {attached : Attached (ImObject Owned)} {bucket : ImVectorBucket Owned}
    {seen : Seen} {kind : Kind} {place : Place Owned} {inner : ImObject Owned}
    (sees : Sees attached bucket seen) (isNested : nestedPlace kind bucket.value = some place)
    (found : resolve derefOwned attached place = some inner) : seen = .nested kind inner := by
  have reached := reach_of_sees kind sees
  simp only [isNested, reach, found, Option.map_some, Option.some.injEq] at reached
  cases seen with
  | nested other object =>
      by_cases same : other = kind
      · simp only [seenObject, if_pos same, Option.some.injEq] at reached
        rw [same, reached]
      · simp [seenObject, same] at reached
  | plain | string | block => cases reached

/-- Every object nested in a serialised object is itself the result of
serialising an object. -/
theorem serialized_within {kind : Kind} {object object' inner : ImObject Owned}
    (serialized : Serialized kind object object') (within : Within object' inner) :
    ∃ innerKind source, Serialized innerKind source inner := by
  induction within with
  | self => exact ⟨kind, object, serialized⟩
  | nested _ member isNested found ih =>
      obtain ⟨outerKind, source, outer⟩ := ih
      cases outer with
      | hashtable _ _ _ _ arranged _ shapes children =>
          obtain ⟨seen, seenMember, sees⟩ :=
            exists_image arranged.sees (List.mem_of_mem_filter member)
          obtain rfl := nested_of_resolve sees isNested found
          obtain ⟨innerSource, paired⟩ := exists_source shapes seenMember
          exact ⟨_, innerSource, children _ _ _ paired⟩
      | vector _ _ _ _ _ arranged _ shapes children =>
          obtain ⟨seen, seenMember, sees⟩ := exists_image arranged.sees member
          obtain rfl := nested_of_resolve sees isNested found
          obtain ⟨innerSource, paired⟩ := exists_source shapes seenMember
          exact ⟨_, innerSource, children _ _ _ paired⟩

/-! ### Copies

The getters follow no pointer in a compact object, so a copy of its bytes answers
in the same way, whatever `deref` makes of the pointers. -/

section Copies

variable {deref : Owned → Option (ImObject Owned)} {attached : Attached (ImObject Owned)}

theorem reach_deref {value : ImValue Owned} (attachedForm : ¬ value.IsExternal) (kind : Kind) :
    reach deref attached (nestedPlace kind value) =
      reach derefOwned attached (nestedPlace kind value) := by
  cases value with
  | externalNested | externalVector => exact absurd trivial attachedForm
  | attachedNested | attachedVector => cases kind <;> rfl
  | _ => rfl

theorem stringBytes_deref {value : ImValue Owned} (attachedForm : ¬ value.IsExternal) :
    stringBytes deref attached value = stringBytes derefOwned attached value := by
  cases value with
  | externalString => exact absurd trivial attachedForm
  | _ => rfl

theorem blockBytes_deref {value : ImValue Owned} (attachedForm : ¬ value.IsExternal) :
    blockBytes deref attached value = blockBytes derefOwned attached value := by
  cases value with
  | externalBlock => exact absurd trivial attachedForm
  | _ => rfl

theorem answerNum_deref (floating : Floating) (target : NumType) {value : ImValue Owned}
    (attachedForm : ¬ value.IsExternal) :
    answerNum floating deref attached target value =
      answerNum floating derefOwned attached target value := by
  have same : stringBytes deref attached value = _ := stringBytes_deref attachedForm
  cases value <;> simp only [answerNum] <;> rw [same]

theorem answerString_deref (floating : Floating) (size : Nat) {value : ImValue Owned}
    (attachedForm : ¬ value.IsExternal) :
    answerString floating deref attached size value =
      answerString floating derefOwned attached size value := by
  have same : stringBytes deref attached value = _ := stringBytes_deref attachedForm
  cases value <;> simp only [answerString] <;> rw [same]

/-- A getter only sees a live bucket of the dictionary. -/
theorem withElement_congr {α : Type} {table : ImHashtable Owned} (key : List UInt8)
    {answer other : ImHashBucket Owned → Option (Option α)}
    (agree : ∀ bucket, bucket.toImVectorBucket ∈ liveBuckets (.hashtable table) →
      answer bucket = other bucket) :
    withElement table key answer = withElement table key other := by
  unfold withElement imRetrieveElementByKey
  cases imFindElement table key with
  | none => rfl
  | some position =>
      simp only [Option.map_some, Option.bind_some, imRetrieveElement, Table.retrieve]
      by_cases live : (imOps Owned).status (table.slot (imOps Owned) position) = .live
      · have inside : position < table.buckets.length := by
          by_contra outside
          rw [Table.slot, List.getD_eq_default _ _ (not_lt.mp outside)] at live
          cases live
        rw [if_pos live]
        apply agree
        refine List.mem_filter.mpr ⟨?_, decide_eq_true live⟩
        exact List.mem_map.mpr ⟨_, Table.slot_mem _ inside, rfl⟩
      · rw [if_neg live]

theorem hop_deref {object : ImObject Owned} (compact : Compact object) (step : Hop) :
    hop deref object step = hop derefOwned object step := by
  have onTable {table : ImHashtable Owned} (compact : Compact (.hashtable table))
      (key : List UInt8) (kind : Kind) :
      ((withElement table key fun bucket => some (nestedPlace kind bucket.value)).bind
        (reach deref table.extra)) =
      (withElement table key fun bucket => some (nestedPlace kind bucket.value)).bind
        (reach derefOwned table.extra) := by
    rw [withElement_bind table key _ (reach deref table.extra) rfl,
      withElement_bind table key _ (reach derefOwned table.extra) rfl]
    exact withElement_congr key fun bucket member => reach_deref (compact.attached _ member) kind
  cases object with
  | hashtable table =>
      cases step with
      | dict key => exact onTable compact key .nested
      | array key => exact onTable compact key .vector
      | element index => rfl
  | vector vector =>
      cases step with
      | element index =>
          simp only [hop, getArrayDict, imGetElement]
          by_cases valid : 0 ≤ index ∧ index < vector.inuse
          · rw [if_pos valid]
            cases found : vector.buckets[index.toNat]? with
            | none => rfl
            | some bucket =>
                have member : bucket ∈ usedBuckets vector := by
                  obtain ⟨inside, rfl⟩ := List.getElem?_eq_some_iff.mp found
                  exact List.mem_take_iff_getElem.mpr ⟨index.toNat, by omega, rfl⟩
                exact reach_deref (compact.attached bucket member) .nested
          · rw [if_neg valid]
            rfl
      | dict | array => rfl
  | bytes | torn => cases step <;> rfl

theorem ask_deref (floating : Floating) {object : ImObject Owned} (compact : Compact object)
    (query : Query) : ask floating deref object query = ask floating derefOwned object query := by
  cases object with
  | hashtable table =>
      cases query with
      | num key target =>
          refine congrArg (Option.map (Option.map (Answer.num target))) ?_
          exact withElement_congr key fun bucket member =>
            answerNum_deref floating target (compact.attached _ member)
      | string key size =>
          refine congrArg (Option.map (Option.map Answer.bytes)) ?_
          unfold getDictString
          split
          · rfl
          · exact withElement_congr key fun bucket member =>
              answerString_deref floating _ (compact.attached _ member)
      | block key size =>
          refine congrArg (Option.map (Option.map Answer.bytes)) ?_
          unfold getDictBlock
          split
          · rfl
          · refine withElement_congr key fun bucket member => ?_
            have same : blockBytes deref table.extra bucket.value = _ :=
              blockBytes_deref (compact.attached _ member)
            rw [answerBlock, same, answerBlock]
      | nElement | keyv | arrayLength => rfl
  | vector | bytes | torn => cases query <;> rfl

theorem follow_deref {kind : Kind} {object object' : ImObject Owned}
    (serialized : Serialized kind object object') (path : List Hop) :
    follow deref path object' = follow derefOwned path object' := by
  induction path generalizing kind object object' with
  | nil => rfl
  | cons step rest ih =>
      have alike := hop_serialized serialized step
      simp only [follow, hop_deref serialized.compact]
      generalize hop derefOwned object step = before at alike
      generalize hop derefOwned object' step = after at alike ⊢
      cases alike with
      | undefined => rfl
      | absent => rfl
      | found found => exact ih found

theorem get_deref (floating : Floating) {kind : Kind} {object object' : ImObject Owned}
    (serialized : Serialized kind object object') (path : List Hop) (query : Query) :
    get floating deref path query object' = get floating derefOwned path query object' := by
  have alike := follow_serialized serialized path
  simp only [get, follow_deref serialized path]
  generalize follow derefOwned path object = before at alike
  generalize follow derefOwned path object' = after at alike ⊢
  cases alike with
  | undefined => rfl
  | absent => rfl
  | found found => exact ask_deref floating found.compact query

end Copies

/-! ## The results -/

section Results

variable {table : ImHashtable Owned}

/-- The dictionary of `InitDict(0)`. -/
def emptyDict : ImHashtable Owned := ⟨3, 0, 3, Attached.none, List.replicate 3 blankBucket⟩

theorem initDict_zero : initDict 0 = some emptyDict := by
  simp [initDict, imInitializeHashtable, Table.create, imOps, numberOfBuckets_zero, emptyDict]

theorem built_emptyDict : Built .nested (.hashtable emptyDict) := .initDict initDict_zero

/-- A dictionary with an empty dictionary under the key `"k"`. -/
def nestedDict : ImHashtable Owned where
  numberOfBuckets := 3
  inuse := 1
  empty := 2
  extra := Attached.none
  buckets := [blankBucket, blankBucket,
    ⟨⟨416, .externalNested 416 (.alloc (.hashtable emptyDict))⟩, keyField [107] 0⟩]

theorem built_nestedDict : Built .nested (.hashtable nestedDict) := by
  have set : setDictDict owned emptyDict [107] (.alloc (.hashtable emptyDict)) =
      some (nestedDict, 2) := rfl
  exact .setDict built_emptyDict built_emptyDict set

theorem small_nestedDict : Small (.hashtable nestedDict) := by
  intro depth
  match depth with
  | 0 => decide
  | 1 => decide
  | depth + 2 =>
      simp [serialSize, nestedDict, emptyDict, commonParts, hashSize, behind, blankBucket,
        Owned.content, ImSerialize.aligned, imAlignOffset]

/-- A second `SerializeDict` returns the same length and changes nothing. -/
theorem serializeDict_idempotent (built : Built .nested (.hashtable table))
    (small : Small (.hashtable table)) :
    ∃ (after : ImHashtable Owned) (length : Nat) (depth : Nat), ∀ fuel, depth ≤ fuel →
      serializeDict fuel table = some (after, (length : Int)) ∧
      serializeDict fuel after = some (after, (length : Int)) := by
  obtain ⟨after, serialized, first, ends⟩ := exists_serializeDict built.formed small
  obtain ⟨second, fixed⟩ := fixed_serializeDict serialized
  refine ⟨after, _, max first second, fun fuel le => ⟨ends fuel (le_of_max_le_left le), ?_⟩⟩
  exact fixed fuel (le_of_max_le_right le)

theorem serializeDict_idempotent_nested :
    ∃ (after : ImHashtable Owned) (length : Nat) (depth : Nat), ∀ fuel, depth ≤ fuel →
      serializeDict fuel nestedDict = some (after, (length : Int)) ∧
      serializeDict fuel after = some (after, (length : Int)) :=
  serializeDict_idempotent built_nestedDict small_nestedDict

end Results

end FrameCode.Beai3Dict
