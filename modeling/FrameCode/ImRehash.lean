import FrameCode.ImHashtable

/-!
# Rebuilding and inserting

What `im_rehash_hashtable` and `im_insert_element` do to the bindings of a table and to the
used part of its attached area.  A rebuild inserts into a table that has room for every live
bucket, so it never leads to another one.
-/

namespace FrameCode.ImHashtable

open OpenAddressing ImTypes MachineInt

variable {ε : Type}

/-- The first `attached_offset` bytes of two attached areas are the same. -/
def SameAttached (before after : Attached (ImObject ε)) : Prop :=
  after.attachedOffset = before.attachedOffset ∧
    ∀ offset object, offset + object.size ≤ before.attachedOffset →
      (after.area offset = some object ↔ before.area offset = some object)

theorem SameAttached.refl (attached : Attached (ImObject ε)) : SameAttached attached attached :=
  ⟨rfl, fun _ _ _ => Iff.rfl⟩

theorem SameAttached.carry (attached : Attached (ImObject ε)) :
    SameAttached attached attached.carry := by
  refine ⟨rfl, fun offset object inside => ?_⟩
  simp only [Attached.carry, RegionMemory.Area.clip, Option.filter_eq_some_iff]
  exact ⟨fun found => found.1, fun found => ⟨found, by simpa using inside⟩⟩

theorem sameAttached_of_carried {before after : Attached (ImObject ε)}
    (carried : after = before ∨ after = before.carry) : SameAttached before after := by
  rcases carried with rfl | rfl
  · exact .refl _
  · exact .carry _

/-- `im_insert_element` refuses the bucket: it has no value, or its key is live. -/
def Refused (hashtable : ImHashtable ε) (bucket : ImHashBucket ε) : Prop :=
  bucket.value.status = .empty ∨ bucket.value.status = .deleted ∨
    ∃ old, hashtable.Holds (imOps ε) (cString keyMaxLength bucket.key) old

section Calls

variable {hashtable : ImHashtable ε}

/-- `im_rehash_hashtable` succeeds, keeps exactly the live buckets and the attached bytes,
drops the DELETED buckets and leaves room for an insertion.  The result is the same whatever
stands for a rebuild inside of its insertions: there is none. -/
theorem imRehashHashtable_keeps (inv : hashtable.Inv (imOps ε))
    (bounded : hashtable.inuse ≤ 499990) :
    ∃ after, imRehashHashtable hashtable = some (after, 0) ∧ after.Inv (imOps ε) ∧
      (∀ key bucket, after.Holds (imOps ε) key bucket ↔ hashtable.Holds (imOps ε) key bucket) ∧
      SameAttached hashtable.extra after.extra ∧
      (∀ bucket ∈ after.buckets, bucket.value.status ≠ .deleted) ∧
      after.numberOfBuckets / 2 < pred32 after.empty ∧
      ∀ rehash : ImHashtable ε → Option (ImHashtable ε × Bool),
        Table.reinsert (imOps ε) (Table.insertWith (imOps ε) rehash) hashtable.buckets
          { imInitializeHashtable (toInt32 (toUInt32 (2 * hashtable.inuse))) with
            extra := hashtable.extra.carry } = some (after, true) := by
  have limit : hashtable.inuse < (imOps ε).limit :=
    Nat.lt_of_le_of_lt bounded (by decide : 499990 < 499991)
  obtain ⟨after, inserted, afterInv, afterSize, afterExtra, afterInuse, afterTotal, afterHolds⟩ :=
    inv.reinsert_live limit.le fun _ => none
  have rehashed : Table.rehash (imOps ε) (hashtable.inuse + 1) hashtable = some (after, true) := by
    rw [Table.rehash]
    simp only [Table.reinsert_of_none inserted]
  have room := (imOps ε).room hashtable.inuse limit
  have odd := afterInv.odd
  have sizeBound := afterInv.size_lt
  rw [← afterSize] at room
  refine ⟨after, ?_, afterInv, afterHolds, sameAttached_of_carried (Or.inr afterExtra),
    fun bucket member => afterInv.ne_deleted afterTotal member, ?_,
    fun rehash => Table.reinsert_of_none inserted rehash⟩
  · simp [imRehashHashtable, rehashed]
  · rw [pred32_eq (by omega) (by omega)]
    omega

/-- `im_insert_element` answers `-1` exactly for a bucket without a value and for a live key,
and then changes no binding; otherwise it adds exactly the one binding. -/
theorem imInsertElement_exact (inv : hashtable.Inv (imOps ε)) (roomy : hashtable.inuse < 499991)
    (bucket : ImHashBucket ε) :
    ∃ after code, imInsertElement hashtable bucket = some (after, code) ∧
      after.Inv (imOps ε) ∧ SameAttached hashtable.extra after.extra ∧
      (code = -1 ↔ Refused hashtable bucket) ∧
      (Refused hashtable bucket → after.inuse = hashtable.inuse ∧
        ∀ key other, after.Holds (imOps ε) key other ↔ hashtable.Holds (imOps ε) key other) ∧
      (¬ Refused hashtable bucket → after.inuse = hashtable.inuse + 1 ∧
        ∀ key other, after.Holds (imOps ε) key other ↔
          (other = bucket ∧ cString keyMaxLength bucket.key = key) ∨
            hashtable.Holds (imOps ε) key other) := by
  by_cases live : (imOps ε).status bucket = .live
  · by_cases present : ∃ old, hashtable.Holds (imOps ε) ((imOps ε).key bucket) old
    · obtain ⟨old, holds⟩ := present
      obtain ⟨after, inserted, afterInv, afterInuse, afterExtra, afterHolds⟩ :=
        inv.insert_of_holds roomy hashtable.inuse live holds
      have refused : Refused hashtable bucket := Or.inr (Or.inr ⟨old, holds⟩)
      exact ⟨after, -1, by simp [imInsertElement, inserted, positionCode], afterInv,
        sameAttached_of_carried afterExtra, iff_of_true rfl refused,
        fun _ => ⟨afterInuse, afterHolds⟩, fun accepted => absurd refused accepted⟩
    · obtain ⟨after, position, inserted, afterInv, afterInuse, afterExtra, afterHolds⟩ :=
        inv.insert_spec roomy hashtable.inuse live fun old holds => present ⟨old, holds⟩
      have accepted : ¬ Refused hashtable bucket := by
        have alive : bucket.value.status = .live := live
        rintro (empty | deleted | holds)
        · rw [alive] at empty
          cases empty
        · rw [alive] at deleted
          cases deleted
        · exact present holds
      refine ⟨after, position, by simp [imInsertElement, inserted, positionCode], afterInv,
        sameAttached_of_carried afterExtra, iff_of_false ?_ accepted,
        fun refused => absurd refused accepted, fun _ => ⟨afterInuse, afterHolds⟩⟩
      omega
  · have refused : Refused hashtable bucket := by
      have dead : bucket.value.status ≠ .live := live
      cases status : bucket.value.status with
      | empty => exact Or.inl status
      | deleted => exact Or.inr (Or.inl status)
      | live => exact absurd status dead
    exact ⟨hashtable, -1,
      by simp [imInsertElement, Table.insert, Table.insertWith, live, positionCode], inv,
      .refl _, iff_of_true rfl refused, fun _ => ⟨rfl, fun _ _ => Iff.rfl⟩,
      fun accepted => absurd refused accepted⟩

end Calls

/-- The rebuilt table has the two live buckets and no longer the DELETED one. -/
theorem imRehashHashtable_keeps_probed :
    ∃ after, imRehashHashtable probedTable = some (after, 0) ∧ after.Inv (imOps Owned) ∧
      (∃ bucket, after.Holds (imOps Owned) [107] bucket) ∧
      (∀ bucket, ¬ after.Holds (imOps Owned) [100] bucket) ∧
      (∀ bucket ∈ after.buckets, bucket.value.status ≠ .deleted) ∧
      after.numberOfBuckets / 2 < pred32 after.empty := by
  obtain ⟨after, rehashed, afterInv, holds, -, clean, room, -⟩ :=
    imRehashHashtable_keeps probedTable_inv (by decide : 2 ≤ 499990)
  refine ⟨after, rehashed, afterInv, ?_, fun bucket held => ?_, clean, room⟩
  · exact ⟨_, (holds _ _).mpr probedTable_holds⟩
  · exact probedTable_lacks bucket ((holds _ _).mp held)

/-- A live key is refused; a DELETED one is inserted again, after a rebuild. -/
theorem imInsertElement_exact_probed :
    (∃ after, imInsertElement probedTable ⟨⟨4, .num .int 7⟩, letterKey 107⟩ = some (after, -1) ∧
      after.inuse = 2) ∧
    ∃ after code, imInsertElement probedTable ⟨⟨4, .num .int 7⟩, letterKey 100⟩ =
        some (after, code) ∧ code ≠ -1 ∧ after.inuse = 3 ∧
      ∃ bucket, after.Holds (imOps Owned) [107] bucket := by
  constructor
  · obtain ⟨after, code, inserted, -, -, refused, kept, -⟩ :=
      imInsertElement_exact probedTable_inv (by decide : 2 < 499991)
        ⟨⟨4, .num .int 7⟩, letterKey 107⟩
    have taken : Refused probedTable ⟨⟨4, .num .int 7⟩, letterKey 107⟩ :=
      Or.inr (Or.inr ⟨_, probedTable_holds⟩)
    exact ⟨after, refused.mpr taken ▸ inserted, (kept taken).1⟩
  · obtain ⟨after, code, inserted, -, -, refused, -, added⟩ :=
      imInsertElement_exact probedTable_inv (by decide : 2 < 499991)
        ⟨⟨4, .num .int 7⟩, letterKey 100⟩
    have accepted : ¬ Refused probedTable ⟨⟨4, .num .int 7⟩, letterKey 100⟩ := by
      rintro (empty | deleted | ⟨old, holds⟩)
      · cases empty
      · cases deleted
      · exact probedTable_lacks old holds
    obtain ⟨count, bindings⟩ := added accepted
    exact ⟨after, code, inserted, fun failed => accepted (refused.mp failed), count, _,
      (bindings _ _).mpr (Or.inr probedTable_holds)⟩

end FrameCode.ImHashtable
