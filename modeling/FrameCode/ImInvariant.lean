import FrameCode.ImSerialize

/-!
# The representation invariant of the hash table

Every hash table that the operations of `im_hashtable.c` can build satisfies the
invariant of open addressing, stated here in the terms of the C structure.
-/

namespace FrameCode.ImHashtable

open OpenAddressing QuadraticProbing ImTypes ImSerialize PrimeTable

/-! ## Serialisation keeps the shape of a table -/

section Shape

variable {growth : Growth} {serialize : Kind → Owned → Option (Owned × Int)}
variable {buffer attached attached' : Attached (ImObject Owned)}

theorem append_status {form : Nat → Nat → ImValue Owned} {bucket bucket' : ImVectorBucket Owned}
    {content : ImObject Owned} (live : ∀ size offset, (form size offset).status = .live)
    (appended : append form attached bucket content = some (attached', bucket')) :
    bucket'.value.status = .live := by
  unfold append at appended
  split at appended
  · cases appended
  · split at appended
    · cases appended
      exact live _ _
    · cases appended

theorem attachBytes_status {inlined : List UInt8 → ImValue Owned}
    {form : Nat → Nat → ImValue Owned} {bucket bucket' : ImVectorBucket Owned}
    {content : ImObject Owned} (liveInlined : ∀ bytes, (inlined bytes).status = .live)
    (live : ∀ size offset, (form size offset).status = .live)
    (placed : attachBytes inlined form attached bucket content = some (attached', bucket')) :
    bucket'.value.status = .live := by
  unfold attachBytes at placed
  split at placed
  · split at placed
    · split at placed
      · cases placed
        exact liveInlined _
      · cases placed
    · cases placed
  · exact append_status live placed

theorem attachBucket_status {bucket bucket' : ImVectorBucket Owned}
    (placed : attachBucket owned growth buffer attached bucket = some (attached', bucket')) :
    bucket'.value.status = bucket.value.status := by
  rw [attachBucket_owned] at placed
  cases form : bucket.value <;> simp only [form, Option.bind_eq_some_iff] at placed
  case externalString | externalBlock =>
    exact attachBytes_status (fun _ => rfl) (fun _ _ => rfl) placed
  case externalNested | externalVector => exact append_status (fun _ _ => rfl) placed
  case attachedString | attachedBlock =>
    obtain ⟨content, -, placed⟩ := placed
    exact attachBytes_status (fun _ => rfl) (fun _ _ => rfl) placed
  all_goals
    cases placed
    rw [form]

theorem serializeBucket_status {bucket bucket' : ImVectorBucket Owned} {succeeded : Bool}
    (serialized : serializeBucket owned serialize buffer bucket = some (bucket', succeeded)) :
    bucket'.value.status = bucket.value.status := by
  have recorded {value : ImValue Owned} {length : Int}
      (record : recordLength bucket value length = (bucket', succeeded))
      (live : value.status = .live) : bucket'.value.status = .live := by
    unfold recordLength at record
    split at record <;> cases record <;> exact live
  rw [serializeBucket_owned] at serialized
  cases form : bucket.value <;>
    simp only [form, Option.map_eq_some_iff, Option.bind_eq_some_iff] at serialized
  case externalNested | externalVector =>
    obtain ⟨result, -, same⟩ := serialized
    exact recorded same rfl
  case attachedNested | attachedVector =>
    obtain ⟨content, -, result, -, same⟩ := serialized
    exact recorded same rfl
  all_goals
    cases serialized
    rw [form]

/-- The loop over the buckets changes the common parts only, and none of their
statuses. -/
theorem serializeBuckets_status {β : Type} {view : β → ImVectorBucket Owned}
    {put : β → ImVectorBucket Owned → β} (put_view : ∀ bucket, put bucket (view bucket) = bucket) :
    ∀ {buckets buckets' : List β} {attached attached' : Attached (ImObject Owned)}
      {succeeded : Bool},
      serializeBuckets owned growth view put serialize buffer attached buckets =
        some (attached', buckets', succeeded) →
      List.Forall₂ (fun old new => ∃ common : ImVectorBucket Owned, new = put old common ∧
        common.value.status = (view old).value.status) buckets buckets' := by
  intro buckets
  induction buckets with
  | nil =>
      intro buckets' attached attached' succeeded walked
      cases walked
      exact .nil
  | cons bucket rest ih =>
      intro buckets' attached attached' succeeded walked
      simp only [serializeBuckets, Option.bind_eq_bind, Option.bind_eq_some_iff] at walked
      obtain ⟨⟨serialized, good⟩, serializedEq, walked⟩ := walked
      have firstStatus := serializeBucket_status serializedEq
      cases good with
      | false =>
          cases walked
          refine .cons ⟨serialized, rfl, firstStatus⟩ (List.forall₂_same.mpr ?_)
          intro other _
          exact ⟨view other, (put_view other).symm, rfl⟩
      | true =>
          simp only [if_true, Option.bind_eq_some_iff] at walked
          obtain ⟨⟨middle, placed⟩, placedEq, ⟨final, others, succeeded'⟩, walkedRest, walked⟩ :=
            walked
          cases walked
          exact .cons ⟨placed, rfl, (attachBucket_status placedEq).trans firstStatus⟩
            (ih walkedRest)

end Shape

/-- Serialising a table changes neither its counters nor the status or the key
field of any bucket, whether it succeeds or not. -/
theorem imSerializeHashtable_frame {fuel : Nat} {table after : ImHashtable Owned} {code : Int}
    (serialized : imSerializeHashtable fuel table = some (after, code)) :
    after.numberOfBuckets = table.numberOfBuckets ∧ after.inuse = table.inuse ∧
      after.empty = table.empty ∧
      List.Forall₂ (fun old new => new.value.status = old.value.status ∧ new.key = old.key)
        table.buckets after.buckets := by
  simp only [imSerializeHashtable, serializeTable, Option.bind_eq_bind,
    Option.bind_eq_some_iff] at serialized
  obtain ⟨⟨attached, buckets, good⟩, walked, serialized⟩ := serialized
  have similar := serializeBuckets_status (fun _ => rfl) walked
  have shape : List.Forall₂ (fun old new => new.value.status = old.value.status ∧
      new.key = old.key) table.buckets buckets := by
    refine similar.imp ?_
    rintro old new ⟨common, rfl, sameStatus⟩
    exact ⟨sameStatus, rfl⟩
  cases good <;> cases serialized <;> exact ⟨rfl, rfl, rfl, shape⟩

theorem similar_of_frame {buckets buckets' : List (ImHashBucket Owned)}
    (frame : List.Forall₂ (fun old new => new.value.status = old.value.status ∧
      new.key = old.key) buckets buckets') :
    List.Forall₂ (fun old new => (imOps Owned).status new = (imOps Owned).status old ∧
      (imOps Owned).key new = (imOps Owned).key old) buckets buckets' :=
  frame.imp fun _ _ same => ⟨same.1, congrArg (cString keyMaxLength) same.2⟩

theorem imSerializeHashtable_similar {fuel : Nat} {table after : ImHashtable Owned} {code : Int}
    (serialized : imSerializeHashtable fuel table = some (after, code)) :
    after.numberOfBuckets = table.numberOfBuckets ∧ after.inuse = table.inuse ∧
      after.empty = table.empty ∧
      List.Forall₂ (fun old new => (imOps Owned).status new = (imOps Owned).status old ∧
        (imOps Owned).key new = (imOps Owned).key old) table.buckets after.buckets := by
  obtain ⟨size_eq, inuse_eq, empty_eq, frame⟩ := imSerializeHashtable_frame serialized
  exact ⟨size_eq, inuse_eq, empty_eq, similar_of_frame frame⟩

/-! ## Runs of the operations -/

/-- The invariant in the terms of `im_hashtable`: positions are indices of
`buckets`, keys are their first 102 bytes, and `h + k²` is the `k`-th bucket
examined for a key with the hash code `h`. -/
structure Representation (hashtable : ImHashtable Owned) : Prop where
  prime : hashtable.numberOfBuckets ∈ primeNumber ∧ hashtable.numberOfBuckets.Prime ∧
    hashtable.numberOfBuckets % 2 = 1
  length_buckets : hashtable.buckets.length = hashtable.numberOfBuckets
  inuse_eq : hashtable.inuse =
    hashtable.buckets.countP fun bucket => decide (bucket.value.status = .live)
  empty_eq : hashtable.empty =
    hashtable.buckets.countP fun bucket => decide (bucket.value.status = .empty)
  half_empty : hashtable.numberOfBuckets / 2 < hashtable.empty
  distinct : ∀ p q (pInside : p < hashtable.buckets.length)
    (qInside : q < hashtable.buckets.length),
    hashtable.buckets[p].value.status ≠ .empty → hashtable.buckets[q].value.status ≠ .empty →
    cString keyMaxLength hashtable.buckets[p].key =
      cString keyMaxLength hashtable.buckets[q].key → p = q
  reachable : ∀ p (inside : p < hashtable.buckets.length),
    hashtable.buckets[p].value.status ≠ .empty →
    ∃ k, (imHashcode hashtable.buckets[p].key % hashtable.numberOfBuckets + k * k) %
        hashtable.numberOfBuckets = p ∧
      ∀ i < k, ∀ q (qInside : q < hashtable.buckets.length),
        (imHashcode hashtable.buckets[p].key % hashtable.numberOfBuckets + i * i) %
          hashtable.numberOfBuckets = q → hashtable.buckets[q].value.status ≠ .empty

theorem Representation.of_inv {hashtable : ImHashtable Owned}
    (inv : hashtable.Inv (imOps Owned)) : Representation hashtable := by
  obtain ⟨capacity, sized⟩ := inv.sized
  have slotEq {p : Nat} (inside : p < hashtable.buckets.length) :
      hashtable.buckets[p] = hashtable.slot (imOps Owned) p :=
    (Table.slot_eq_getElem (imOps Owned) inside).symm
  refine ⟨⟨?_, inv.prime, inv.odd⟩, inv.length_buckets, inv.inuse_eq, inv.empty_eq,
    inv.half_empty, ?_, ?_⟩
  · rw [sized]
    exact numberOfBuckets_mem capacity
  · intro p q pInside qInside pUsed qUsed sameKey
    rw [slotEq pInside] at pUsed sameKey
    rw [slotEq qInside] at qUsed sameKey
    exact inv.distinct p (inv.length_buckets ▸ pInside) q (inv.length_buckets ▸ qInside) pUsed
      qUsed sameKey
  · intro p inside used
    rw [slotEq inside] at used ⊢
    obtain ⟨k, reaches, before⟩ := inv.reachable p (inv.length_buckets ▸ inside) used
    have hashEq : (imOps Owned).hash ((imOps Owned).key (hashtable.slot (imOps Owned) p)) =
        imHashcode (hashtable.slot (imOps Owned) p).key := imHashcode_cString _
    simp only [Table.probe, slotAt, hashEq] at reaches before
    refine ⟨k, reaches, ?_⟩
    rintro i less q qInside rfl
    rw [slotEq qInside]
    exact before i less

/-- The operations of `im_hashtable.h` that change a table. -/
inductive Operation
  | insert (bucket : ImHashBucket Owned)
  | delete (position : Nat)
  | empty
  | rehash
  | serialize (fuel : Nat)

/-- One operation with the code it returns; `none` when it accesses memory that
is not there. -/
def perform (hashtable : ImHashtable Owned) : Operation → Option (ImHashtable Owned × Int)
  | .insert bucket => imInsertElement hashtable bucket
  | .delete position =>
      if position < hashtable.numberOfBuckets then some (imDeleteElement hashtable position)
      else none
  | .empty => some (imEmptyHashtable hashtable, 0)
  | .rehash => imRehashHashtable hashtable
  | .serialize fuel => imSerializeHashtable fuel hashtable

/-- The tables that operations build, with fewer than 499991 live entries before
each insertion. -/
inductive Reachable : ImHashtable Owned → Prop
  | create (capacity : Int) : Reachable (imInitializeHashtable capacity)
  | step {hashtable after : ImHashtable Owned} {code : Int} (operation : Operation)
      (before : Reachable hashtable)
      (roomy : ∀ bucket, operation = .insert bucket → hashtable.inuse < 499991)
      (performed : perform hashtable operation = some (after, code)) : Reachable after

section Steps

variable {hashtable after : ImHashtable Owned} {code : Int}

theorem create_bounded (capacity : Int) :
    (imInitializeHashtable capacity : ImHashtable Owned).Inv (imOps Owned) ∧
      (imInitializeHashtable capacity : ImHashtable Owned).inuse ≤ 499991 :=
  ⟨imInitializeHashtable_inv capacity, Nat.zero_le _⟩

theorem imInsertElement_inv (inv : hashtable.Inv (imOps Owned))
    (roomy : hashtable.inuse < 499991) (bucket : ImHashBucket Owned) :
    ∃ after code, imInsertElement hashtable bucket = some (after, code) ∧
      after.Inv (imOps Owned) ∧ after.inuse ≤ hashtable.inuse + 1 := by
  obtain ⟨after, position, inserted, facts⟩ := inv.insert_inv roomy hashtable.inuse bucket
  exact ⟨after, positionCode position, by simp [imInsertElement, inserted], facts⟩

theorem imRehashHashtable_inv (inv : hashtable.Inv (imOps Owned))
    (bounded : hashtable.inuse ≤ 499991) :
    ∃ after, imRehashHashtable hashtable = some (after, 0) ∧ after.Inv (imOps Owned) ∧
      after.inuse = hashtable.inuse := by
  obtain ⟨after, rehashed, afterInv, -, -, afterInuse, -, -⟩ :=
    inv.rehash_spec bounded hashtable.inuse
  exact ⟨after, by simp [imRehashHashtable, rehashed], afterInv, afterInuse⟩

theorem imSerializeHashtable_inv (inv : hashtable.Inv (imOps Owned)) {fuel : Nat}
    (serialized : imSerializeHashtable fuel hashtable = some (after, code)) :
    after.Inv (imOps Owned) ∧ after.inuse = hashtable.inuse := by
  obtain ⟨size_eq, inuse_eq, empty_eq, similar⟩ := imSerializeHashtable_similar serialized
  exact ⟨inv.of_similar size_eq inuse_eq empty_eq similar, inuse_eq⟩

/-- Every operation keeps the invariant and the bound on the live entries. -/
theorem perform_inv (inv : hashtable.Inv (imOps Owned)) (bounded : hashtable.inuse ≤ 499991)
    {operation : Operation}
    (roomy : ∀ bucket, operation = .insert bucket → hashtable.inuse < 499991)
    (performed : perform hashtable operation = some (after, code)) :
    after.Inv (imOps Owned) ∧ after.inuse ≤ 499991 := by
  cases operation with
  | insert bucket =>
      obtain ⟨table, reply, inserted, tableInv, tableInuse⟩ :=
        imInsertElement_inv inv (roomy bucket rfl) bucket
      simp only [perform, inserted] at performed
      cases performed
      have := roomy bucket rfl
      exact ⟨tableInv, by omega⟩
  | delete position =>
      simp only [perform] at performed
      split at performed
      · obtain ⟨deletedInv, deletedInuse⟩ := inv.delete_inv ‹_›
        obtain rfl : (imDeleteElement hashtable position).1 = after := by
          rw [Option.some.inj performed]
        exact ⟨deletedInv, deletedInuse.trans bounded⟩
      · cases performed
  | empty =>
      cases performed
      exact ⟨(inv.clear_spec _).1, Nat.zero_le _⟩
  | rehash =>
      obtain ⟨table, rehashed, tableInv, tableInuse⟩ := imRehashHashtable_inv inv bounded
      simp only [perform, rehashed] at performed
      cases performed
      exact ⟨tableInv, by omega⟩
  | serialize fuel =>
      obtain ⟨afterInv, inuse_eq⟩ := imSerializeHashtable_inv inv performed
      exact ⟨afterInv, by omega⟩

end Steps

theorem Reachable.inv {hashtable : ImHashtable Owned} (reached : Reachable hashtable) :
    hashtable.Inv (imOps Owned) ∧ hashtable.inuse ≤ 499991 := by
  induction reached with
  | create capacity => exact create_bounded capacity
  | step operation _ roomy performed ih => exact perform_inv ih.1 ih.2 roomy performed

/-- Every table that the operations build satisfies the invariant, and on it no
search, insertion or rebuild leaves the table. -/
theorem reachable_representation {hashtable : ImHashtable Owned}
    (reached : Reachable hashtable) :
    Representation hashtable ∧
      (∀ key, (imFindElement hashtable key).isSome) ∧
      (∀ bucket, hashtable.inuse < 499991 → (imInsertElement hashtable bucket).isSome) ∧
      (imRehashHashtable hashtable).isSome := by
  obtain ⟨inv, bounded⟩ := reached.inv
  refine ⟨.of_inv inv, ?_, ?_, ?_⟩
  · intro key
    obtain ⟨k, -, found, -⟩ := inv.find_spec (cString keyMaxLength key)
    simp [imFindElement, found]
  · intro bucket roomy
    obtain ⟨after, code, inserted, -⟩ := imInsertElement_inv inv roomy bucket
    simp [inserted]
  · obtain ⟨after, rehashed, -⟩ := imRehashHashtable_inv inv bounded
    simp [rehashed]

/-- A table with one entry, inserted under the key `"k"`. -/
theorem reachable_representation_insert :
    ∃ after code, imInsertElement (imInitializeHashtable 0) ⟨⟨4, .num .int 7⟩, [107, 0]⟩ =
      some (after, code) ∧ Representation after := by
  obtain ⟨inv, -⟩ := create_bounded 0
  obtain ⟨after, code, inserted, -⟩ :=
    imInsertElement_inv inv (by simp [imInitializeHashtable, Table.create])
      ⟨⟨4, .num .int 7⟩, [107, 0]⟩
  refine ⟨after, code, inserted, (reachable_representation ?_).1⟩
  exact .step (.insert ⟨⟨4, .num .int 7⟩, [107, 0]⟩) (.create 0)
    (fun _ _ => by simp [imInitializeHashtable, Table.create]) inserted

end FrameCode.ImHashtable
