import FrameCode.DictSerialize
import FrameCode.LabelledRuns

/-!
# What the setters leave behind

Every setter of `Beai3Dict.c` deletes the old element of its key first and only then
looks at the size of the new value; and each of them has to terminate the key field of
its new bucket itself, which `SetDictString` and `SetDictBlock` do not.  Both facts are
followed over whole runs of calls, without a bound on the number of elements: a call
whose search leaves the table has no result.
-/

namespace FrameCode.Beai3Dict

open OpenAddressing RegionMemory ImTypes ImHashtable ImVector ImSerialize MachineInt CText

/-! ## Calls -/

/-- A call on a dictionary.  A key or a value that is `none` is a null pointer, and `last`
is what the setter finds in the last byte of the key field of its local bucket.  A call on
the handle of a child changes what buckets refer to, but not their status or their key. -/
inductive Call
  | setNum (key : Option (List UInt8)) (type : NumType) (value : BitVec type.bits)
  | setString (last : UInt8) (key value : Option (List UInt8))
  | setBlock (last : UInt8) (key value : Option (List UInt8)) (size : Int)
  | setDict (key : Option (List UInt8)) (object : Owned)
  | setArray (key : Option (List UInt8)) (object : Owned)
  | delete (key : List UInt8)
  | clear
  | serialize (fuel : Nat)
  | child (extra : Attached (ImObject Owned)) (values : List (ImVectorBucket Owned))

/-- The buckets with other values. -/
def withValues (buckets : List (ImHashBucket Owned)) (values : List (ImVectorBucket Owned)) :
    List (ImHashBucket Owned) :=
  List.zipWith (fun bucket value => ⟨value, bucket.key⟩) buckets values

/-- The new values have the status of the old ones. -/
def sameStatus (buckets : List (ImHashBucket Owned)) (values : List (ImVectorBucket Owned)) :
    Bool :=
  buckets.map (fun bucket => bucket.value.status) = values.map fun value => value.value.status

/-- The dictionary and the code after a call. -/
def Call.perform (table : ImHashtable Owned) : Call → Option (ImHashtable Owned × Int)
  | .setNum (some key) type value => setDictNum owned type table key value
  | .setString last (some key) (some value) => setDictString owned last table key value
  | .setBlock last (some key) (some value) size => setDictBlock owned last table key value size
  | .setDict (some key) object => setDictDict owned table key object
  | .setArray (some key) object => setDictArray owned table key object
  | .setNum none _ _ | .setString .. | .setBlock .. | .setDict none _ | .setArray none _ =>
      some (table, -1)
  | .delete key => deleteDict owned table key
  | .clear => (clearDict owned table).map fun cleared => (cleared, 0)
  | .serialize fuel => serializeDict fuel table
  | .child extra values =>
      if sameStatus table.buckets values then
        some ({ table with extra := extra, buckets := withValues table.buckets values }, 0)
      else none

/-- The key that a setter is called with. -/
def Call.setterKey : Call → Option (List UInt8)
  | .setNum key _ _ | .setString _ key _ | .setBlock _ key _ _ | .setDict key _
  | .setArray key _ => key
  | _ => none

/-- A setter that returns before it looks at the dictionary: a pointer is null or the size
is negative. -/
def Call.Refused : Call → Prop
  | .setString _ key value => key = none ∨ value = none
  | .setBlock _ key value size => key = none ∨ value = none ∨ size < 0
  | .setNum key _ _ | .setDict key _ | .setArray key _ => key = none
  | _ => False

/-- The last byte of the key field of a setter's new bucket. -/
def Call.lastByte : Call → UInt8
  | .setString last _ _ | .setBlock last _ _ _ => last
  | _ => 0

def Call.IsSetter : Call → Prop
  | .setNum .. | .setString .. | .setBlock .. | .setDict .. | .setArray .. => True
  | _ => False

/-- The size of a setter's value is within the limit. -/
def Call.Fits : Call → Prop
  | .setString _ _ (some value) => (text value).length + 1 ≤ objectLimit
  | .setBlock _ _ _ size => size ≤ objectLimit
  | .setDict _ (.alloc (.hashtable nested)) =>
      hashSize nested.numberOfBuckets + nested.extra.attachedOffset ≤ objectLimit
  | .setArray _ (.alloc (.vector nested)) =>
      vectorSize nested.numberOfBuckets + nested.attached.attachedOffset ≤ objectLimit
  | _ => True

/-! ## What a call does when it returns -/

section Calls

variable {table after : ImHashtable Owned} {code : Int} {key : List UInt8} {call : Call}

theorem deleteElement_eq {position : Nat} {result : ImHashtable Owned × Int}
    (deleted : deleteElement owned table position = some result) :
    result = imDeleteElement table position := by
  unfold deleteElement at deleted
  cases retrieved : imRetrieveElement table position with
  | none =>
      rw [retrieved] at deleted
      exact (Option.some.inj deleted).symm
  | some bucket =>
      simp only [retrieved, Option.bind_eq_bind, Option.bind_eq_some_iff] at deleted
      obtain ⟨-, -, same⟩ := deleted
      exact (Option.some.inj same).symm

/-- A setter ends with the old element deleted and the new one inserted, or refused. -/
theorem replaceElement_cases {prepare : Option (Option (ImHashBucket Owned))}
    (replaced : replaceElement owned table key prepare = some (after, code)) :
    ∃ position, imFindElement table key = some position ∧
      ((prepare = some none ∧ after = (imDeleteElement table position).1 ∧ code = -1) ∨
        ∃ bucket, prepare = some (some bucket) ∧
          imInsertElement (imDeleteElement table position).1 bucket = some (after, code)) := by
  simp only [replaceElement, Option.bind_eq_bind, Option.bind_eq_some_iff, owned_lift] at replaced
  obtain ⟨position, found, deleted, deletedEq, prepared, preparedEq, rest⟩ := replaced
  rw [deleteElement_eq deletedEq] at rest
  refine ⟨position, found, ?_⟩
  cases prepared with
  | none =>
      cases rest
      exact Or.inl ⟨preparedEq, rfl, rfl⟩
  | some bucket => exact Or.inr ⟨bucket, preparedEq, rest⟩

/-- What a setter prepares: a live bucket with the given key field when its value fits. -/
def Prepared (prepare : Option (Option (ImHashBucket Owned))) (keyBytes : List UInt8)
    (fits : Prop) : Prop :=
  (¬ fits ∧ prepare = some none) ∨
    (fits ∧ ∃ bucket : ImHashBucket Owned, prepare = some (some bucket) ∧
      bucket.value.status = .live ∧ bucket.key = keyBytes)

theorem storeBytes_prepared {inlined : List UInt8 → ImValue Owned}
    {external : Nat → Owned → ImValue Owned} (liveInlined : ∀ bytes, (inlined bytes).status = .live)
    (liveExternal : ∀ size object, (external size object).status = .live)
    (keyBytes bytes : List UInt8) :
    Prepared (storeBytes owned inlined external keyBytes bytes) keyBytes
      (bytes.length ≤ objectLimit) := by
  unfold storeBytes
  by_cases large : objectLimit < bytes.length
  · exact Or.inl ⟨not_le.mpr large, if_pos large⟩
  · refine Or.inr ⟨not_lt.mp large, ?_⟩
    rw [if_neg large]
    split
    · exact ⟨_, rfl, liveInlined _, rfl⟩
    · exact ⟨_, rfl, liveExternal _ _, rfl⟩

theorem nestedBucket_prepared {form : Nat → Owned → ImValue Owned}
    (liveForm : ∀ size object, (form size object).status = .live) (keyBytes : List UInt8)
    (usedSize objectSize : Nat) (object : Owned) :
    Prepared (some ((nestedBucket form usedSize objectSize object).map
      fun bucket => ⟨bucket, keyBytes⟩)) keyBytes (usedSize ≤ objectLimit) := by
  unfold nestedBucket
  by_cases large : objectLimit < usedSize
  · rw [if_pos large]
    exact Or.inl ⟨not_le.mpr large, rfl⟩
  · rw [if_neg large]
    exact Or.inr ⟨not_lt.mp large, _, rfl, liveForm _ _, rfl⟩

/-- What a setter with a key has done when it returns: the old element of the key is
deleted, and the new one is inserted when its value fits. -/
def Replaced (table : ImHashtable Owned) (key : List UInt8) (last : UInt8) (fits : Prop)
    (after : ImHashtable Owned) (code : Int) : Prop :=
  ∃ position, imFindElement table key = some position ∧
    ((¬ fits ∧ after = (imDeleteElement table position).1 ∧ code = -1) ∨
      (fits ∧ ∃ bucket : ImHashBucket Owned, bucket.value.status = .live ∧
        bucket.key = keyField key last ∧
        imInsertElement (imDeleteElement table position).1 bucket = some (after, code)))

theorem Prepared.replaced {prepare : Option (Option (ImHashBucket Owned))} {last : UInt8}
    {fits : Prop} (prepared : Prepared prepare (keyField key last) fits)
    (replaced : replaceElement owned table key prepare = some (after, code)) :
    Replaced table key last fits after code := by
  obtain ⟨position, found, ended⟩ := replaceElement_cases replaced
  refine ⟨position, found, ?_⟩
  rcases prepared with ⟨unfit, rfl⟩ | ⟨fits, bucket, rfl, live, keyEq⟩
  · rcases ended with ⟨-, done⟩ | ⟨bucket, impossible, -⟩
    · exact Or.inl ⟨unfit, done⟩
    · cases impossible
  · rcases ended with ⟨impossible, -⟩ | ⟨inserting, same, inserted⟩
    · cases impossible
    · cases same
      exact Or.inr ⟨fits, bucket, live, keyEq, inserted⟩

theorem setDictBlock_replaced {last : UInt8} {value : List UInt8} {size : Int}
    (nonnegative : ¬ size < 0)
    (performed : setDictBlock owned last table key value size = some (after, code)) :
    Replaced table key last (size ≤ objectLimit) after code := by
  unfold setDictBlock at performed
  rw [if_neg nonnegative] at performed
  split at performed
  · cases performed
  · rename_i readable
    have prepared := @storeBytes_prepared .block .externalBlock (fun _ => rfl) (fun _ _ => rfl)
      (keyField key last) (value.take size.toNat)
    have length_eq : (value.take size.toNat).length = size.toNat := by
      rw [List.length_take]
      omega
    have fitsIff : size.toNat ≤ objectLimit ↔ size ≤ objectLimit := by omega
    rw [length_eq, fitsIff] at prepared
    exact prepared.replaced performed

/-- Every setter that returns has refused its arguments or has replaced the element of its
key. -/
theorem perform_setter (setter : call.IsSetter)
    (performed : call.perform table = some (after, code)) :
    (call.Refused ∧ after = table ∧ code = -1) ∨
      (¬ call.Refused ∧ ∃ key, call.setterKey = some key ∧
        Replaced table key call.lastByte call.Fits after code) := by
  match call, setter with
  | .setNum none _ _, _ | .setDict none _, _ | .setArray none _, _ =>
      cases performed
      exact Or.inl ⟨rfl, rfl, rfl⟩
  | .setString _ none _, _ | .setBlock _ none _ _, _ =>
      cases performed
      exact Or.inl ⟨Or.inl rfl, rfl, rfl⟩
  | .setString _ (some _) none, _ =>
      cases performed
      exact Or.inl ⟨Or.inr rfl, rfl, rfl⟩
  | .setBlock _ (some _) none _, _ =>
      cases performed
      exact Or.inl ⟨Or.inr (Or.inl rfl), rfl, rfl⟩
  | .setNum (some key) type value, _ =>
      refine Or.inr ⟨Option.some_ne_none key, key, rfl,
        Prepared.replaced (Or.inr ⟨trivial, ?_⟩) performed⟩
      exact ⟨_, rfl, rfl, rfl⟩
  | .setString last (some key) (some value), _ =>
      have prepared := @storeBytes_prepared .string .externalString (fun _ => rfl)
        (fun _ _ => rfl) (keyField key last) (text value ++ [0])
      rw [List.length_append] at prepared
      exact Or.inr ⟨by simp [Call.Refused], key, rfl, prepared.replaced performed⟩
  | .setBlock last (some key) (some value) size, _ =>
      by_cases negative : size < 0
      · simp only [Call.perform, setDictBlock, if_pos negative] at performed
        cases performed
        exact Or.inl ⟨Or.inr (Or.inr negative), rfl, rfl⟩
      · exact Or.inr ⟨by simpa [Call.Refused] using negative, key, rfl,
          setDictBlock_replaced negative performed⟩
  | .setDict (some key) (.alloc (.hashtable nested)), _ =>
      exact Or.inr ⟨Option.some_ne_none key, key, rfl,
        (nestedBucket_prepared (fun _ _ => rfl) _ _ _ _).replaced performed⟩
  | .setArray (some key) (.alloc (.vector nested)), _ =>
      exact Or.inr ⟨Option.some_ne_none key, key, rfl,
        (nestedBucket_prepared (fun _ _ => rfl) _ _ _ _).replaced performed⟩
  | .setDict (some _) (.alloc (.bytes _)), _ | .setDict (some _) (.alloc (.torn _)), _
  | .setDict (some _) (.alloc (.vector _)), _ | .setArray (some _) (.alloc (.bytes _)), _
  | .setArray (some _) (.alloc (.torn _)), _ | .setArray (some _) (.alloc (.hashtable _)), _ =>
      cases performed

/-- The key has no live bucket after its element has been deleted. -/
theorem imDeleteElement_sound (sound : table.Sound (imOps Owned)) {position : Nat}
    (found : imFindElement table key = some position) :
    (imDeleteElement table position).1.Sound (imOps Owned) ∧
      ∀ old, ¬ (imDeleteElement table position).1.Holds (imOps Owned)
        (cString keyMaxLength key) old := by
  obtain ⟨inside, unique, keyOf, -⟩ := sound.find_some found
  obtain ⟨deletedSound, deletedHolds⟩ := sound.delete inside
  refine ⟨deletedSound, fun old holds => ?_⟩
  obtain ⟨⟨member, live, keyEq⟩, other⟩ := (deletedHolds _ _).mp holds
  obtain ⟨p, pInside, rfl⟩ := Table.exists_slot_of_mem (imOps Owned) member
  rw [sound.length_buckets] at pInside
  obtain rfl := unique p pInside (Table.occupied_of_live live) keyEq
  exact other live keyEq.symm

/-- An insertion after the deletion is never refused. -/
theorem Replaced.inserted (sound : table.Sound (imOps Owned)) {last : UInt8} {fits : Prop}
    (replaced : Replaced table key last fits after code) (fitting : fits) :
    after.Sound (imOps Owned) ∧ code ≠ -1 ∧
      ∃ bucket ∈ after.buckets, bucket.value.status = .live ∧ bucket.key = keyField key last := by
  obtain ⟨position, found, ⟨unfit, -⟩ | ⟨-, bucket, live, keyEq, inserted⟩⟩ := replaced
  · exact absurd fitting unfit
  · obtain ⟨deletedSound, absent⟩ := imDeleteElement_sound sound found
    have sameKey : (imOps Owned).key bucket = cString keyMaxLength key := by
      change cString keyMaxLength bucket.key = _
      rw [keyEq, keyField_cString]
    obtain ⟨⟨final, result⟩, placed, same⟩ := Option.map_eq_some_iff.mp inserted
    cases same
    obtain ⟨accepted, finalSound, finalHolds⟩ :=
      deletedSound.insert live (fun old => sameKey ▸ absent old) placed
    obtain ⟨member, -, -⟩ := (finalHolds _ bucket).mpr (Or.inl ⟨rfl, rfl⟩)
    refine ⟨finalSound, ?_, bucket, member, live, keyEq⟩
    obtain ⟨place, rfl⟩ := Option.ne_none_iff_exists'.mp accepted
    simp [positionCode]

theorem Replaced.sound (sound : table.Sound (imOps Owned)) {last : UInt8} {fits : Prop}
    (replaced : Replaced table key last fits after code) : after.Sound (imOps Owned) := by
  by_cases fitting : fits
  · exact (replaced.inserted sound fitting).1
  · obtain ⟨position, found, ⟨-, rfl, -⟩ | ⟨fits, -⟩⟩ := replaced
    · exact (imDeleteElement_sound sound found).1
    · exact absurd fits fitting

end Calls

/-! ## Runs of calls -/

/-- The dictionary after a call that returns. -/
def step (table : ImHashtable Owned) (call : Call) : Option (ImHashtable Owned) :=
  (call.perform table).map Prod.fst

theorem withValues_similar {buckets : List (ImHashBucket Owned)}
    {values : List (ImVectorBucket Owned)} (same : sameStatus buckets values) :
    List.Forall₂ (fun old new => new.value.status = old.value.status ∧ new.key = old.key)
      buckets (withValues buckets values) := by
  induction buckets generalizing values with
  | nil => simp [withValues]
  | cons bucket rest ih =>
      cases values with
      | nil => simp [sameStatus] at same
      | cons value others =>
          simp only [sameStatus, List.map_cons, List.cons.injEq, decide_eq_true_eq] at same
          exact .cons ⟨same.1.symm, rfl⟩ (ih (by simpa [sameStatus] using same.2))

/-- What the calls other than setters leave of the buckets: tombstones with the old key
field, empty buckets, and buckets with the old status and key field. -/
theorem perform_other {table after : ImHashtable Owned} {code : Int} {call : Call}
    (other : ¬ call.IsSetter) (performed : call.perform table = some (after, code)) :
    (∃ key position, imFindElement table key = some position ∧
        after = (imDeleteElement table position).1) ∨
      after = imEmptyHashtable table ∨
      (after.numberOfBuckets = table.numberOfBuckets ∧ after.inuse = table.inuse ∧
        after.empty = table.empty ∧ List.Forall₂
          (fun old new => new.value.status = old.value.status ∧ new.key = old.key)
          table.buckets after.buckets) := by
  match call with
  | .setNum .. | .setString .. | .setBlock .. | .setDict .. | .setArray .. =>
      exact absurd trivial other
  | .delete key =>
      simp only [Call.perform, deleteDict, owned_lift, Option.bind_eq_bind,
        Option.bind_eq_some_iff] at performed
      obtain ⟨position, found, deleted⟩ := performed
      refine Or.inl ⟨key, position, found, ?_⟩
      rw [← deleteElement_eq deleted]
  | .clear =>
      simp only [Call.perform, clearDict, Option.map_eq_some_iff, Option.bind_eq_bind,
        Option.bind_eq_some_iff] at performed
      obtain ⟨cleared, ⟨-, -, clearedEq⟩, same⟩ := performed
      cases same
      cases clearedEq
      exact Or.inr (Or.inl rfl)
  | .serialize fuel =>
      exact Or.inr (Or.inr (imSerializeHashtable_frame performed))
  | .child extra values =>
      simp only [Call.perform] at performed
      split at performed
      · rename_i same
        cases performed
        exact Or.inr (Or.inr ⟨rfl, rfl, rfl, withValues_similar same⟩)
      · cases performed

theorem perform_sound {table after : ImHashtable Owned} {code : Int} {call : Call}
    (sound : table.Sound (imOps Owned)) (performed : call.perform table = some (after, code)) :
    after.Sound (imOps Owned) := by
  by_cases setter : call.IsSetter
  · rcases perform_setter setter performed with ⟨-, rfl, -⟩ | ⟨-, key, -, replaced⟩
    · exact sound
    · exact replaced.sound sound
  · rcases perform_other setter performed with
      ⟨key, position, found, rfl⟩ | rfl | ⟨size_eq, -, -, frame⟩
    · exact (imDeleteElement_sound sound found).1
    · exact sound.clear _
    · exact sound.of_similar size_eq (similar_of_frame frame)

theorem initDict_sound {capacity : Int} {table : ImHashtable Owned}
    (created : initDict capacity = some table) : table.Sound (imOps Owned) := by
  unfold initDict at created
  split at created
  · cases created
  · cases created
    exact (Table.create_inv (imOps Owned) capacity Attached.none).1.sound

/-- Every dictionary of a run is sound. -/
theorem run_sound {capacity : Int} {initial table : ImHashtable Owned} {calls : List Call}
    (created : initDict capacity = some initial) (reached : run step initial calls = some table) :
    table.Sound (imOps Owned) := by
  have preserved : Preserved step (fun _ _ => True) (Table.Sound (imOps Owned)) := by
    intro table call after sound _ stepped
    obtain ⟨⟨final, code⟩, performed, rfl⟩ := Option.map_eq_some_iff.mp stepped
    exact perform_sound sound performed
  exact preserved.run (initDict_sound created) (meets_true calls) reached

/-! ## Failed setters -/

/-- Every getter, also through nested objects, and `GetDictNElement` answer for both
dictionaries alike. -/
def Unchanged (table after : ImHashtable Owned) : Prop :=
  (∀ floating path query, get floating derefOwned path query (.hashtable after) =
    get floating derefOwned path query (.hashtable table)) ∧
  getDictNElement after = getDictNElement table

theorem pred32_ne (n : Nat) : pred32 n ≠ n := by
  unfold pred32
  omega

/-- The element of a key has been deleted without a trace exactly when there was none. -/
theorem unchanged_delete_iff {table : ImHashtable Owned} {key : List UInt8} {position : Nat}
    (found : imFindElement table key = some position) :
    Unchanged table (imDeleteElement table position).1 ↔
      imRetrieveElementByKey table key = some none := by
  have retrieved : imRetrieveElementByKey table key = some none ↔
      ¬ (imOps Owned).status (table.slot (imOps Owned) position) = .live := by
    simp [imRetrieveElementByKey, found, imRetrieveElement, Table.retrieve]
  rw [retrieved]
  constructor
  · rintro ⟨-, sameCount⟩ live
    apply pred32_ne table.inuse
    simpa [getDictNElement, imDeleteElement, Table.delete, live] using sameCount
  · intro dead
    have same : (imDeleteElement table position).1 = table := by
      simp [imDeleteElement, Table.Inv.delete_of_not_live dead]
    rw [same]
    exact ⟨fun _ _ _ => rfl, rfl⟩

/-- `SetDictBlock` of one byte more than the limit under the key `"k"`. -/
def oversized (value : List UInt8) : Call := .setBlock 0 (some [107]) (some value) 1048577

theorem perform_oversized (table : ImHashtable Owned) {value : List UInt8}
    (length_eq : value.length = 1048577) :
    (oversized value).perform table = replaceElement owned table [107] (some none) := by
  have whole : value.take 1048577 = value := List.take_of_length_le length_eq.le
  simp [oversized, Call.perform, setDictBlock, storeBytes, objectLimit, length_eq, whole]

/-- A dictionary with one number under the key `"j"`. -/
def otherDict : ImHashtable Owned where
  numberOfBuckets := 3
  inuse := 1
  empty := 2
  extra := Attached.none
  buckets := [blankBucket, ⟨⟨4, .num .int 1⟩, keyField [106] 0⟩, blankBucket]

/-- A dictionary with one number under the key `"k"`. -/
def numberDict : ImHashtable Owned where
  numberOfBuckets := 3
  inuse := 1
  empty := 2
  extra := Attached.none
  buckets := [blankBucket, blankBucket, ⟨⟨4, .num .int 1⟩, keyField [107] 0⟩]

/-- The first bytes of a key are its text, cut at the limit. -/
theorem cString_eq_take (limit : Nat) (bytes : List UInt8) :
    cString limit bytes = (text bytes).take limit := by
  unfold cString text
  induction bytes generalizing limit with
  | nil => simp
  | cons byte rest ih =>
      cases limit with
      | zero => simp
      | succ limit =>
          by_cases terminator : byte = 0
          · simp [terminator]
          · simp [terminator, ih]

/-- The key field of a setter is terminated unless its key fills 102 bytes and the last
byte is not NUL. -/
theorem zero_mem_keyField (key : List UInt8) (last : UInt8) :
    0 ∈ keyField key last ↔ (keyMaxLength ≤ (text key).length → last = 0) := by
  have nonzero : (0 : UInt8) ∉ cString keyMaxLength key := fun member =>
    cString_ne_zero member rfl
  have length_eq : (cString keyMaxLength key).length = min keyMaxLength (text key).length := by
    rw [cString_eq_take, List.length_take]
  simp only [keyField, strncpy, List.mem_append, nonzero, List.mem_replicate, false_or,
    List.mem_singleton, length_eq]
  constructor
  · rintro (⟨short, -⟩ | same) long
    · omega
    · exact same.symm
  · intro terminated
    by_cases long : keyMaxLength ≤ (text key).length
    · exact Or.inr (terminated long).symm
    · exact Or.inl ⟨by omega, trivial⟩

/-- A terminated key field reads as the first 102 bytes of the key. -/
theorem text_keyField {key : List UInt8} {last : UInt8} (terminated : 0 ∈ keyField key last) :
    text (keyField key last) = cString keyMaxLength key := by
  have nonzero : ∀ byte ∈ cString keyMaxLength key, (byte != 0) = true := fun byte member => by
    simpa using cString_ne_zero member
  unfold keyField strncpy at terminated ⊢
  generalize keyMaxLength - (cString keyMaxLength key).length = padding at terminated ⊢
  rw [text, List.append_assoc, List.takeWhile_append_of_pos nonzero]
  cases padding with
  | zero =>
      have last_eq : last = 0 := by
        rcases List.mem_append.mp terminated with member | member
        · simpa using nonzero 0 (by simpa using member)
        · exact (List.mem_singleton.mp member).symm
      simp [last_eq]
  | succ padding => simp [List.replicate_succ]

theorem length_keyField (key : List UInt8) (last : UInt8) : (keyField key last).length = 103 := by
  rw [keyField, List.length_append, strncpy_length]
  rfl

/-- A dictionary with the keys its setters have been called with. -/
structure History where
  table : ImHashtable Owned
  keys : List (List UInt8)

def History.step (history : History) (call : Call) : Option History :=
  (Beai3Dict.step history.table call).map fun after =>
    ⟨after, call.setterKey.toList ++ history.keys⟩

/-- The key field of every live bucket contains a NUL, and the strings of `GetDictKeyv`
are the first 102 bytes of keys that were set. -/
def History.Terminated (history : History) : Prop :=
  (∀ bucket ∈ history.table.buckets, bucket.value.status = .live →
    bucket.key.length = 103 ∧ 0 ∈ bucket.key) ∧
  ∀ keyc, ∀ field ∈ getDictKeyv history.table keyc, ∃ key ∈ history.keys,
    text field = cString keyMaxLength key

/-- A setter that stores its value under a key of 102 bytes or more finds a NUL in the last
byte of its key field. -/
def Call.Terminates (call : Call) : Prop :=
  ∀ key, call.setterKey = some key → ¬ call.Refused → call.Fits →
    keyMaxLength ≤ (text key).length → call.lastByte = 0

/-- A live bucket has the key field of a bucket that was live before the call, or the one
that the call has filled. -/
theorem live_after_perform {table after : ImHashtable Owned} {code : Int} {call : Call}
    (performed : call.perform table = some (after, code)) {bucket : ImHashBucket Owned}
    (member : bucket ∈ after.buckets) (live : bucket.value.status = .live) :
    (∃ old ∈ table.buckets, old.value.status = .live ∧ bucket.key = old.key) ∨
      ∃ key, call.setterKey = some key ∧ ¬ call.Refused ∧ call.Fits ∧
        bucket.key = keyField key call.lastByte := by
  have ofDeleted {position : Nat} (kept : bucket ∈ (imDeleteElement table position).1.buckets) :
      ∃ old ∈ table.buckets, old.value.status = .live ∧ bucket.key = old.key := by
    rcases (Table.delete_stems rfl).2 bucket kept with rfl | before
    · cases live
    · exact ⟨bucket, before, live, rfl⟩
  by_cases setter : call.IsSetter
  · rcases perform_setter setter performed with ⟨-, rfl, -⟩ | ⟨admitted, key, keyEq, replaced⟩
    · exact Or.inl ⟨bucket, member, live, rfl⟩
    · obtain ⟨position, -, ⟨-, rfl, -⟩ | ⟨fits, new, -, newKey, inserted⟩⟩ := replaced
      · exact Or.inl (ofDeleted member)
      · obtain ⟨⟨final, result⟩, placed, same⟩ := Option.map_eq_some_iff.mp inserted
        cases same
        rcases (Table.insert_stems placed).buckets bucket member with rfl | rfl | kept
        · cases live
        · exact Or.inr ⟨key, keyEq, admitted, fits, newKey⟩
        · exact Or.inl (ofDeleted kept)
  · rcases perform_other setter performed with ⟨-, position, -, rfl⟩ | rfl | ⟨-, -, -, frame⟩
    · exact Or.inl (ofDeleted member)
    · have empty : bucket.value.status = .empty := Table.status_of_mem_clear _ member
      rw [live] at empty
      cases empty
    · obtain ⟨position, inside, rfl⟩ := List.getElem_of_mem member
      have before : position < table.buckets.length := frame.length_eq ▸ inside
      obtain ⟨status_eq, key_eq⟩ := frame.get before inside
      exact Or.inl ⟨_, List.getElem_mem before, status_eq ▸ live, key_eq⟩

/-- The invariant of the terminated runs: every live bucket has the terminated key field
of a key that was set. -/
structure History.Inv (history : History) : Prop where
  sound : history.table.Sound (imOps Owned)
  keyed : ∀ bucket ∈ history.table.buckets, bucket.value.status = .live →
    ∃ key ∈ history.keys, ∃ last, bucket.key = keyField key last ∧ 0 ∈ bucket.key

theorem History.Inv.terminated {history : History} (inv : history.Inv) :
    history.Terminated := by
  refine ⟨fun bucket member live => ?_, fun keyc field member => ?_⟩
  · obtain ⟨key, -, last, keyEq, terminated⟩ := inv.keyed bucket member live
    exact ⟨keyEq ▸ length_keyField key last, terminated⟩
  · obtain ⟨bucket, chosen, rfl⟩ := List.mem_map.mp member
    obtain ⟨kept, live⟩ := List.mem_filter.mp (List.mem_of_mem_take chosen)
    obtain ⟨key, set, last, keyEq, terminated⟩ :=
      inv.keyed bucket kept (of_decide_eq_true live)
    rw [keyEq] at terminated ⊢
    exact ⟨key, set, text_keyField terminated⟩

theorem History.step_eq {history after : History} {call : Call}
    (stepped : history.step call = some after) :
    ∃ code, call.perform history.table = some (after.table, code) ∧
      after.keys = call.setterKey.toList ++ history.keys := by
  obtain ⟨table, taken, rfl⟩ := Option.map_eq_some_iff.mp stepped
  obtain ⟨⟨final, code⟩, performed, rfl⟩ := Option.map_eq_some_iff.mp taken
  exact ⟨code, performed, rfl⟩

theorem History.preserved_inv :
    Preserved History.step (fun _ call => call.Terminates) History.Inv := by
  intro history call after inv terminates stepped
  obtain ⟨code, performed, keys_eq⟩ := History.step_eq stepped
  refine ⟨perform_sound inv.sound performed, fun bucket member live => ?_⟩
  rcases live_after_perform performed member live with
    ⟨old, before, oldLive, sameKey⟩ | ⟨key, keyEq, admitted, fits, filled⟩
  · obtain ⟨key, set, last, oldKey, terminated⟩ := inv.keyed old before oldLive
    exact ⟨key, by simp [keys_eq, set], last, sameKey.trans oldKey, sameKey ▸ terminated⟩
  · refine ⟨key, by simp [keys_eq, keyEq], call.lastByte, filled, ?_⟩
    rw [filled, zero_mem_keyField]
    exact terminates key keyEq admitted fits

/-- A setter that does not find a NUL where it needs one leaves an unterminated key. -/
theorem History.terminates_of_terminated {history after : History} {call : Call}
    (inv : history.Inv) (stepped : history.step call = some after)
    (terminated : after.Terminated) : call.Terminates := by
  intro key keyEq admitted fits
  obtain ⟨code, performed, -⟩ := History.step_eq stepped
  have setter : call.IsSetter := by
    cases call <;> trivial
  rcases perform_setter setter performed with ⟨refused, -⟩ | ⟨-, other, otherEq, replaced⟩
  · exact absurd refused admitted
  · obtain rfl : key = other := Option.some.inj (keyEq.symm.trans otherEq)
    obtain ⟨-, -, bucket, member, live, filled⟩ := replaced.inserted inv.sound fits
    rw [← zero_mem_keyField, ← filled]
    exact (terminated.1 bucket member live).2

theorem History.inv_initDict {capacity : Int} {initial : ImHashtable Owned}
    (created : initDict capacity = some initial) : History.Inv ⟨initial, []⟩ := by
  refine ⟨initDict_sound created, fun bucket member live => ?_⟩
  unfold initDict at created
  split at created
  · cases created
  · cases created
    rw [List.eq_of_mem_replicate member] at live
    cases live

/-- In a run of calls on a new dictionary all stored keys are terminated, and read back as
the first 102 bytes of keys that were set, if and only if every `SetDictString` and every
`SetDictBlock` that stores a value under a key of 102 bytes or more finds a NUL in the last
byte of its local key field: these two setters are the only ones that do not write it. -/
theorem keys_terminated_iff {capacity : Int} {initial : ImHashtable Owned}
    (created : initDict capacity = some initial) (calls : List Call) :
    Throughout History.step History.Terminated ⟨initial, []⟩ calls ↔
      Meets History.step (fun _ call => call.Terminates) ⟨initial, []⟩ calls :=
  History.preserved_inv.throughout_iff_meets (fun _ inv => inv.terminated)
    (fun _ _ _ inv stepped => History.terminates_of_terminated inv stepped)
    (History.inv_initDict created) calls

/-- A key of 102 letters. -/
def longKey : List UInt8 := List.replicate 102 107

/-- A number under the long key and a string that is as long as the key. -/
theorem keys_terminated_number :
    Throughout History.step History.Terminated ⟨emptyDict, []⟩
      [.setNum (some longKey) .int 1, .setString 0 (some longKey) (some longKey)] := by
  refine (keys_terminated_iff initDict_zero _).mpr ?_
  intro next _
  refine ⟨fun _ _ _ _ _ => rfl, fun final _ => ⟨fun _ _ _ _ _ => rfl, trivial⟩⟩

/-- The last byte of the key field is whatever stood on the stack. -/
theorem not_keys_terminated :
    ¬ ∀ (capacity : Int) (initial : ImHashtable Owned) (calls : List Call),
      initDict capacity = some initial →
        Throughout History.step History.Terminated ⟨initial, []⟩ calls := by
  intro always
  obtain ⟨-, terminated⟩ :=
    always 0 emptyDict [.setString 88 (some longKey) (some [])] initDict_zero
  have fits : (text []).length + 1 ≤ objectLimit := by decide
  have stores := (Run.init initDict_zero).stores
  obtain ⟨after, code, performed, -⟩ :=
    stores.set longKey 88 (show Value.Storable (.string []) from fits) (by decide)
  have stepped : History.step ⟨emptyDict, []⟩ (.setString 88 (some longKey) (some [])) =
      some ⟨after, [longKey]⟩ := by
    have again : (Call.setString 88 (some longKey) (some [])).perform emptyDict =
      some (after, code) := performed
    simp [History.step, step, again, Call.setterKey]
  have terminates := History.terminates_of_terminated (History.inv_initDict initDict_zero)
    stepped (terminated ⟨after, [longKey]⟩ stepped) longKey rfl
  exact absurd (terminates (by simp [Call.Refused]) fits le_rfl) (by decide)

end FrameCode.Beai3Dict
