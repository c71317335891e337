import FrameCode.DictSetters

/-!
# The keys of a dictionary

`GetDictKeyv` scans the buckets, `GetDictNElement` reads the counter, and the getters search by
hash.  The three views agree over every run of calls that has room for its keys; in a dictionary
with more keys a search may leave the table.
-/

namespace FrameCode.Beai3Dict

open OpenAddressing PrimeTable ImTypes ImHashtable ImSerialize CText

/-! ## Room for the keys -/

/-- A setter is called on fewer than 499991 keys. -/
def Call.Roomy (table : ImHashtable Owned) (call : Call) : Prop :=
  call.IsSetter → getDictNElement table < 499991

section Room

variable {table after : ImHashtable Owned} {code : Int} {call : Call}

theorem imDeleteElement_inv (inv : table.Inv (imOps Owned)) {key : List UInt8} {position : Nat}
    (found : imFindElement table key = some position) :
    (imDeleteElement table position).1.Inv (imOps Owned) ∧
      (imDeleteElement table position).1.inuse ≤ table.inuse :=
  inv.delete_inv (inv.sound.find_some found).1

theorem Replaced.inv (inv : table.Inv (imOps Owned)) (roomy : getDictNElement table < 499991)
    {key : List UInt8} {last : UInt8} {fits : Prop}
    (replaced : Replaced table key last fits after code) : after.Inv (imOps Owned) := by
  obtain ⟨position, found, ended⟩ := replaced
  obtain ⟨deletedInv, fewer⟩ := imDeleteElement_inv inv found
  rcases ended with ⟨-, rfl, -⟩ | ⟨-, bucket, -, -, inserted⟩
  · exact deletedInv
  · obtain ⟨final, result, insertedEq, finalInv, -⟩ :=
      imInsertElement_inv deletedInv (Nat.lt_of_le_of_lt fewer roomy) bucket
    cases inserted.symm.trans insertedEq
    exact finalInv

theorem Call.perform_inv (inv : table.Inv (imOps Owned)) (roomy : call.Roomy table)
    (performed : call.perform table = some (after, code)) : after.Inv (imOps Owned) := by
  by_cases setter : call.IsSetter
  · rcases perform_setter setter performed with ⟨-, rfl, -⟩ | ⟨-, key, -, replaced⟩
    · exact inv
    · exact replaced.inv inv (roomy setter)
  · rcases perform_other setter performed with
      ⟨key, position, found, rfl⟩ | rfl | ⟨size_eq, inuse_eq, empty_eq, frame⟩
    · exact (imDeleteElement_inv inv found).1
    · exact (inv.clear_spec _).1
    · exact inv.of_similar size_eq inuse_eq empty_eq (similar_of_frame frame)

theorem initDict_inv {capacity : Int} (created : initDict capacity = some table) :
    table.Inv (imOps Owned) := by
  unfold initDict at created
  split at created
  · cases created
  · cases created
    exact imInitializeHashtable_inv capacity

/-- Every dictionary of a run with room for its keys satisfies the invariant. -/
theorem run_inv {capacity : Int} {initial : ImHashtable Owned} {calls : List Call}
    (created : initDict capacity = some initial) (roomy : Meets step Call.Roomy initial calls)
    (reached : run step initial calls = some table) : table.Inv (imOps Owned) := by
  have preserved : Preserved step Call.Roomy (Table.Inv (imOps Owned)) := by
    intro table call after inv roomy stepped
    obtain ⟨⟨final, code⟩, performed, rfl⟩ := Option.map_eq_some_iff.mp stepped
    exact Call.perform_inv inv roomy performed
  exact preserved.run (initDict_inv created) roomy reached

end Room

/-! ## Getters that succeed and getters that fail -/

/-- The getters by the type of what they return. -/
inductive Getter
  | num (target : NumType)
  | string
  | block
  | dict
  | array

/-- The kinds of values for which a getter does not return `-1`. -/
def Getter.Accepts : Getter → ImValue Owned → Prop
  | .num _, .num .. | .num _, .string _ | .num _, .externalString ..
  | .num _, .attachedString .. => True
  | .string, .num .. | .string, .string _ | .string, .externalString ..
  | .string, .attachedString .. => True
  | .block, .block _ | .block, .externalBlock .. | .block, .attachedBlock .. => True
  | .dict, .externalNested .. | .dict, .attachedNested .. => True
  | .array, .externalVector .. | .array, .attachedVector .. => True
  | _, _ => False

/-- The getter finds an element of its type. -/
def Getter.Succeeds (getter : Getter) (table : ImHashtable Owned) (key : List UInt8) : Prop :=
  ∃ bucket, imRetrieveElementByKey table key = some (some bucket) ∧ getter.Accepts bucket.value

/-- The getter finds no element of its type. -/
def Getter.Fails (getter : Getter) (table : ImHashtable Owned) (key : List UInt8) : Prop :=
  ∃ retrieved, imRetrieveElementByKey table key = some retrieved ∧
    ∀ bucket ∈ retrieved, ¬ getter.Accepts bucket.value

/-- Whether the getter returns something other than `-1`, for a buffer of the given size where
it takes one. -/
def Getter.answer (floating : Floating) (table : ImHashtable Owned) (key : List UInt8)
    (size : Int) : Getter → Option Bool
  | .num target => (getDictNum floating derefOwned table key target).map Option.isSome
  | .string => (getDictString floating derefOwned table key size).map Option.isSome
  | .block => (getDictBlock derefOwned table key size).map Option.isSome
  | .dict => (getDictDict table key).map Option.isSome
  | .array => (getDictArray table key).map Option.isSome

section Getters

variable {table : ImHashtable Owned} {key : List UInt8}

/-- A getter that answers just the values of its type. -/
theorem withElement_isSome {α : Type} {getter : Getter}
    {answer : ImHashBucket Owned → Option (Option α)} {found : Bool}
    (answered : (withElement table key answer).map Option.isSome = some found)
    (typed : ∀ bucket result, answer bucket = some result →
      (result.isSome = true ↔ getter.Accepts bucket.value)) :
    (found = true ↔ getter.Succeeds table key) ∧ (found = false ↔ getter.Fails table key) := by
  simp only [withElement, Option.map_eq_some_iff, Option.bind_eq_some_iff] at answered
  obtain ⟨result, ⟨retrieved, retrievedEq, resultEq⟩, rfl⟩ := answered
  cases retrieved with
  | none =>
      cases resultEq
      simp [Getter.Succeeds, Getter.Fails, retrievedEq]
  | some bucket =>
      simp [Getter.Succeeds, Getter.Fails, retrievedEq, ← typed bucket result resultEq]

/-- Reading the bytes of a string finds some for the three kinds of strings only. -/
theorem stringBytes_isSome {attached : Attached (ImObject Owned)} {value : ImValue Owned}
    {bytes : Option (List UInt8)} (read : stringBytes derefOwned attached value = some bytes) :
    bytes.isSome = true ↔
      (value matches .string _ | .externalString .. | .attachedString ..) = true := by
  cases value with
  | string content =>
      cases read
      simp
  | externalString _ object | attachedString _ object =>
      obtain ⟨content, -, rfl⟩ := Option.map_eq_some_iff.mp read
      simp
  | _ =>
      cases read
      simp

theorem blockBytes_isSome {attached : Attached (ImObject Owned)} {value : ImValue Owned}
    {bytes : Option (List UInt8)} (read : blockBytes derefOwned attached value = some bytes) :
    bytes.isSome = true ↔ Getter.block.Accepts value := by
  cases value with
  | block content =>
      cases read
      simp [Getter.Accepts]
  | externalBlock _ object | attachedBlock _ object =>
      obtain ⟨content, -, rfl⟩ := Option.map_eq_some_iff.mp read
      simp [Getter.Accepts]
  | _ =>
      cases read
      simp [Getter.Accepts]

theorem answerNum_isSome (floating : Floating) {target : NumType}
    {attached : Attached (ImObject Owned)} {value : ImValue Owned}
    {result : Option (BitVec target.bits)}
    (answered : answerNum floating derefOwned attached target value = some result) :
    result.isSome = true ↔ (Getter.num target).Accepts value := by
  unfold answerNum at answered
  cases value with
  | num source bits =>
      cases answered
      simp [Getter.Accepts]
  | _ =>
      obtain ⟨bytes, read, rfl⟩ := Option.map_eq_some_iff.mp answered
      rw [Option.isSome_map, stringBytes_isSome read]
      simp [Getter.Accepts]

theorem answerString_isSome (floating : Floating) {size : Nat}
    {attached : Attached (ImObject Owned)} {value : ImValue Owned} {result : Option (List UInt8)}
    (answered : answerString floating derefOwned attached size value = some result) :
    result.isSome = true ↔ Getter.string.Accepts value := by
  unfold answerString at answered
  cases value with
  | num source bits =>
      cases answered
      simp [Getter.Accepts]
  | _ =>
      obtain ⟨bytes, read, rfl⟩ := Option.map_eq_some_iff.mp answered
      rw [Option.isSome_map, stringBytes_isSome read]
      simp [Getter.Accepts]

theorem answerBlock_isSome {size : Nat} {attached : Attached (ImObject Owned)}
    {bucket : ImVectorBucket Owned} {result : Option (List UInt8)}
    (answered : answerBlock derefOwned attached size bucket = some result) :
    result.isSome = true ↔ Getter.block.Accepts bucket.value := by
  obtain ⟨bytes, read, rest⟩ := Option.bind_eq_some_iff.mp answered
  rw [← blockBytes_isSome read]
  cases bytes with
  | none =>
      cases rest
      rfl
  | some bytes =>
      simp only at rest
      split at rest
      · cases rest
        rfl
      · cases rest

theorem nestedPlace_isSome (value : ImValue Owned) :
    ((nestedPlace .nested value).isSome = true ↔ Getter.dict.Accepts value) ∧
      ((nestedPlace .vector value).isSome = true ↔ Getter.array.Accepts value) := by
  cases value <;> simp [nestedPlace, Getter.Accepts]

/-- A getter that returns has succeeded just when the dictionary has an element of its type under
the key, and failed just when it has none. -/
theorem Getter.answer_iff (floating : Floating) {size : Int} (positive : 0 < size)
    {getter : Getter} {found : Bool}
    (answered : getter.answer floating table key size = some found) :
    (found = true ↔ getter.Succeeds table key) ∧ (found = false ↔ getter.Fails table key) := by
  cases getter with
  | num target =>
      exact withElement_isSome answered fun bucket result => answerNum_isSome floating
  | string =>
      rw [Getter.answer, getDictString, if_neg (by omega)] at answered
      exact withElement_isSome answered fun bucket result => answerString_isSome floating
  | block =>
      rw [Getter.answer, getDictBlock, if_neg (by omega)] at answered
      exact withElement_isSome answered fun bucket result => answerBlock_isSome
  | dict =>
      refine withElement_isSome answered fun bucket result same => ?_
      cases same
      exact (nestedPlace_isSome bucket.value).1
  | array =>
      refine withElement_isSome answered fun bucket result same => ?_
      cases same
      exact (nestedPlace_isSome bucket.value).2

/-- With room for the keys every search ends at a bucket of the table. -/
theorem Getter.succeeds_or_fails (inv : table.Inv (imOps Owned)) (getter : Getter)
    (key : List UInt8) : getter.Succeeds table key ∨ getter.Fails table key := by
  obtain ⟨position, -, found, -⟩ := inv.find_place (cString keyMaxLength key)
  have retrieved : imRetrieveElementByKey table key =
      some (imRetrieveElement table position) := by
    simp [imRetrieveElementByKey, imFindElement, found]
  by_cases accepts : ∀ bucket ∈ imRetrieveElement table position, ¬ getter.Accepts bucket.value
  · exact Or.inr ⟨_, retrieved, accepts⟩
  · push Not at accepts
    obtain ⟨bucket, there, accepted⟩ := accepts
    exact Or.inl ⟨bucket, retrieved.trans (congrArg some there), accepted⟩

/-- Every live value has a getter. -/
theorem exists_accepts {value : ImValue Owned} (live : value.status = .live) :
    ∃ getter : Getter, getter.Accepts value := by
  cases value with
  | empty | deleted => cases live
  | num type _ => exact ⟨.num type, trivial⟩
  | string | externalString | attachedString => exact ⟨.string, trivial⟩
  | block | externalBlock | attachedBlock => exact ⟨.block, trivial⟩
  | externalNested | attachedNested => exact ⟨.dict, trivial⟩
  | externalVector | attachedVector => exact ⟨.array, trivial⟩

/-- Some getter succeeds on the key of a live bucket, and on no other key. -/
theorem exists_succeeds_iff (inv : table.Inv (imOps Owned)) :
    (∃ getter : Getter, getter.Succeeds table key) ↔
      ∃ bucket ∈ table.buckets, bucket.value.status = .live ∧
        cString keyMaxLength bucket.key = cString keyMaxLength key := by
  constructor
  · rintro ⟨getter, bucket, retrieved, -⟩
    obtain ⟨position, found, retrievedEq⟩ := Option.map_eq_some_iff.mp retrieved
    obtain ⟨inside, -, keyOf, -⟩ := inv.sound.find_some found
    simp only [imRetrieveElement, Table.retrieve] at retrievedEq
    split at retrievedEq
    · rename_i live
      cases retrievedEq
      exact ⟨_, Table.slot_mem (imOps Owned) (inv.length_buckets ▸ inside), live,
        keyOf (Table.occupied_of_live live)⟩
    · cases retrievedEq
  · rintro ⟨bucket, member, live, sameKey⟩
    obtain ⟨position, inside, rfl⟩ := Table.exists_slot_of_mem (imOps Owned) member
    rw [inv.length_buckets] at inside
    have found := inv.find_occupied inside (Table.occupied_of_live live)
    obtain ⟨getter, accepts⟩ := exists_accepts live
    refine ⟨getter, _, ?_, accepts⟩
    have located : imFindElement table key = some position := by
      rw [imFindElement, ← sameKey]
      exact found
    have alive : (imOps Owned).status (table.slot (imOps Owned) position) = .live := live
    simp [imRetrieveElementByKey, located, imRetrieveElement, Table.retrieve, alive]

end Getters

/-! ## Enumeration -/

section Enumeration

variable {table : ImHashtable Owned} {keyc : Int} {key : List UInt8}

theorem length_live (inv : table.Inv (imOps Owned)) :
    (table.buckets.filter fun bucket => decide (bucket.value.status = .live)).length =
      table.inuse := by
  rw [inv.inuse_eq, List.countP_eq_length_filter]
  rfl

theorem length_getDictKeyv (inv : table.Inv (imOps Owned)) (keyc : Int) :
    (getDictKeyv table keyc).length = min keyc.toNat (getDictNElement table) := by
  rw [getDictKeyv, List.length_map, List.length_take, length_live inv, getDictNElement]

theorem exists_of_mem_getDictKeyv {field : List UInt8} (member : field ∈ getDictKeyv table keyc) :
    ∃ bucket ∈ table.buckets, bucket.value.status = .live ∧ bucket.key = field := by
  obtain ⟨bucket, chosen, rfl⟩ := List.mem_map.mp member
  obtain ⟨inside, live⟩ := List.mem_filter.mp (List.mem_of_mem_take chosen)
  exact ⟨bucket, inside, of_decide_eq_true live, rfl⟩

/-- With room for all keys, every live bucket is listed. -/
theorem mem_getDictKeyv (inv : table.Inv (imOps Owned))
    (room : (getDictNElement table : Int) ≤ keyc) {bucket : ImHashBucket Owned}
    (member : bucket ∈ table.buckets) (live : bucket.value.status = .live) :
    bucket.key ∈ getDictKeyv table keyc := by
  have all : (table.buckets.filter fun bucket =>
      decide (bucket.value.status = .live)).length ≤ keyc.toNat := by
    rw [length_live inv]
    rw [getDictNElement] at room
    omega
  rw [getDictKeyv, List.take_of_length_le all]
  exact List.mem_map_of_mem (List.mem_filter.mpr ⟨member, decide_eq_true live⟩)

/-- The strings that are listed differ in their first 102 bytes. -/
theorem pairwise_getDictKeyv (sound : table.Sound (imOps Owned)) (keyc : Int) :
    (getDictKeyv table keyc).Pairwise fun first second => text first ≠ text second := by
  rw [getDictKeyv, List.pairwise_map]
  refine List.Pairwise.sublist (List.take_sublist _ _) ?_
  have live := sound.pairwise_live.filter fun bucket => decide (bucket.value.status = .live)
  refine live.imp_of_mem fun {first second} firstMember secondMember different same => ?_
  obtain ⟨-, firstLive⟩ := List.mem_filter.mp firstMember
  obtain ⟨-, secondLive⟩ := List.mem_filter.mp secondMember
  refine different (of_decide_eq_true firstLive) (of_decide_eq_true secondLive) ?_
  change cString keyMaxLength first.key = cString keyMaxLength second.key
  rw [cString_eq_take, cString_eq_take, same]

/-- Keys shorter than 102 bytes are told apart by the first 102 bytes of the key field. -/
theorem text_eq_iff {field : List UInt8} (short : (text key).length < keyMaxLength) :
    text field = text key ↔ cString keyMaxLength field = cString keyMaxLength key := by
  rw [cString_eq_take, cString_eq_take, List.take_of_length_le short.le]
  constructor
  · intro same
    rw [same, List.take_of_length_le short.le]
  · intro same
    have cut : ((text field).take keyMaxLength).length < keyMaxLength := same ▸ short
    rw [List.length_take] at cut
    rwa [List.take_of_length_le (by omega)] at same

/-- `GetDictKeyv` lists as many keys as there is room for, all of them live and different; with
room for all elements it lists those keys shorter than 102 bytes on which a getter succeeds, and
on the others every getter fails. -/
structure KeysEnumerated (table : ImHashtable Owned) (keyc : Int) : Prop where
  length_eq : ((getDictKeyv table keyc).length : Int) = min keyc (getDictNElement table)
  distinct : (getDictKeyv table keyc).Pairwise fun first second => text first ≠ text second
  live : ∀ field ∈ getDictKeyv table keyc, ∃ bucket ∈ table.buckets,
    bucket.value.status = .live ∧ bucket.key = field
  exact_iff : (getDictNElement table : Int) ≤ keyc → ∀ key, (text key).length < keyMaxLength →
    ((∃ field ∈ getDictKeyv table keyc, text field = text key) ↔
      ∃ getter : Getter, getter.Succeeds table key)
  answered : ∀ key, ∀ getter : Getter, getter.Succeeds table key ∨ getter.Fails table key
  answers : ∀ floating, ∀ size > 0, ∀ key, ∀ getter : Getter, ∀ found,
    getter.answer floating table key size = some found →
      (found = true ↔ getter.Succeeds table key) ∧ (found = false ↔ getter.Fails table key)

end Enumeration

/-! ## More keys than the table can hold -/

section Overfull

variable {table : ImHashtable Owned} {key : List UInt8}

/-- A number under the key. -/
def Call.number (key : List UInt8) : Call := .setNum (some key) .int 0

/-- The bucket that the call inserts. -/
def numberBucket (key : List UInt8) : ImHashBucket Owned :=
  ⟨⟨NumType.int.sizeof, .num .int 0⟩, keyField key 0⟩

theorem cString_eq_self (size : key.length = 32) (nonzero : ∀ c ∈ key, c ≠ 0) :
    cString keyMaxLength key = key := by
  have short : key.length ≤ keyMaxLength := size.trans_le (by decide)
  rw [cString, List.take_of_length_le short, List.takeWhile_eq_self_iff]
  simpa using nonzero

theorem key_numberBucket (size : key.length = 32) (nonzero : ∀ c ∈ key, c ≠ 0) :
    (imOps Owned).key (numberBucket key) = key :=
  (keyField_cString key 0).trans (cString_eq_self size nonzero)

/-- A setter of a new key only inserts its bucket. -/
theorem replaceElement_absent (inv : table.Inv (imOps Owned))
    (absent : ∀ entry, ¬ table.Holds (imOps Owned) (cString keyMaxLength key) entry)
    (bucket : ImHashBucket Owned) :
    replaceElement owned table key (some (some bucket)) = imInsertElement table bucket := by
  obtain ⟨position, -, found, dead⟩ := inv.find_absent absent
  have located : imFindElement table key = some position := found
  have deleted : deleteElement owned table position = some (table, -1) := by
    simp [deleteElement, imRetrieveElement, Table.retrieve, dead, imDeleteElement,
      Table.Inv.delete_of_not_live dead, positionCode]
  simp [replaceElement, located, deleted]

theorem perform_number (inv : table.Inv (imOps Owned)) (size : key.length = 32)
    (nonzero : ∀ c ∈ key, c ≠ 0) (absent : ∀ entry, ¬ table.Holds (imOps Owned) key entry) :
    (Call.number key).perform table = imInsertElement table (numberBucket key) :=
  replaceElement_absent inv ((cString_eq_self size nonzero).symm ▸ absent) (numberBucket key)

/-- Setters of new keys fill a table up to its bound. -/
theorem run_numbers {keys done : List (List UInt8)} (inv : table.Inv (imOps Owned))
    (count : table.inuse = done.length) (among : table.KeysAmong (imOps Owned) done)
    (texts : ∀ key ∈ keys, key.length = 32 ∧ ∀ c ∈ key, c ≠ 0) (fresh : (keys ++ done).Nodup)
    (few : keys.length + done.length ≤ 499991) :
    ∃ after, run step table (keys.map Call.number) = some after ∧ after.Inv (imOps Owned) ∧
      after.inuse = keys.length + done.length ∧
      after.KeysAmong (imOps Owned) (keys ++ done) := by
  induction keys generalizing table done with
  | nil => exact ⟨table, rfl, inv, by simpa using count, among⟩
  | cons key keys ih =>
      obtain ⟨new, rest⟩ := List.nodup_cons.mp fresh
      obtain ⟨size, nonzero⟩ := texts key List.mem_cons_self
      have keyEq := key_numberBucket size nonzero
      simp only [List.length_cons] at few
      have absent (entry : ImHashBucket Owned) : ¬ table.Holds (imOps Owned) key entry :=
        fun holds => new (List.mem_append_right _ (among _ _ holds))
      obtain ⟨next, position, inserted, nextInv, nextInuse, -, nextHolds⟩ :=
        inv.insert_spec (by change table.inuse < 499991; omega) table.inuse
          (rfl : (imOps Owned).status (numberBucket key) = .live) (keyEq.symm ▸ absent)
      have stepped : step table (Call.number key) = some next := by
        simp [step, perform_number inv size nonzero absent, imInsertElement, inserted]
      have nextAmong : next.KeysAmong (imOps Owned) (key :: done) := by
        intro other entry holds
        rcases (nextHolds other entry).mp holds with ⟨-, same⟩ | before
        · exact same ▸ keyEq.symm ▸ List.mem_cons_self
        · exact List.mem_cons_of_mem _ (among _ _ before)
      have moved : (keys ++ key :: done).Perm (key :: (keys ++ done)) := List.perm_middle
      obtain ⟨after, reached, afterInv, afterInuse, afterAmong⟩ :=
        ih nextInv (by rw [nextInuse, count, List.length_cons]) nextAmong
          (fun other member => texts other (List.mem_cons_of_mem _ member))
          (moved.nodup_iff.mpr fresh) (by simp only [List.length_cons]; omega)
      refine ⟨after, run_cons.mpr ⟨next, stepped, reached⟩, afterInv, ?_,
        fun other entry holds => moved.mem_iff.mp (afterAmong other entry holds)⟩
      rw [afterInuse]
      simp only [List.length_cons]
      omega

end Overfull

end FrameCode.Beai3Dict
