import FrameCode.ImDuplicate
import FrameCode.ImLayout
import FrameCode.ImVectorGrowth

/-!
# Calls on the blocks of objects

Which blocks no run of calls leaves.  A vector reallocates its block before it writes to its
attached area, so that the bytes behind `attached_offset` may be missing.  A hash table writes to
them without that, and it always visits its last bucket.
-/

namespace FrameCode.ImDuplicate

open BlockHeap OpenAddressing ImTypes ImHashtable ImVector ImSerialize MachineInt

theorem accesses_cons {object after : ImObject Nat} {call : Call} {rest : List Call}
    (performed : (perform object call).2 = some after) :
    accesses object (call :: rest) = (perform object call).1 ++ accesses after rest := by
  rw [accesses, performed]

/-! ## Vectors -/

/-- The buckets and the used part of the attached area are in the block. -/
structure Fitting (capacity : Nat) (vector : ImVector Nat) : Prop where
  sized : Sized vector
  small : vector.numberOfBuckets < 4294967296
  inside : ∀ bucket ∈ vector.buckets.take vector.inuse,
    ∀ access ∈ attachedAccesses (.vector vector) bucket,
      access.1 + access.2 ≤ vectorSize vector.numberOfBuckets + vector.attached.attachedOffset
  room : vectorSize vector.numberOfBuckets + vector.attached.attachedOffset ≤ capacity

theorem attachedAccesses_of_given {object : ImObject Nat} {bucket : ImVectorBucket Nat}
    (given : NotAttached bucket.value) : attachedAccesses object bucket = [] := by
  unfold attachedAccesses
  split
  all_goals simp_all [NotAttached]

theorem freeAccesses_subset (object : ImObject Nat) (bucket : ImVectorBucket Nat) :
    ∀ access ∈ freeAccesses object bucket, access ∈ attachedAccesses object bucket := by
  intro access member
  unfold freeAccesses at member
  split at member
  · exact member
  · exact member
  · cases member

/-- A vector reallocates before it writes, unless there is nothing to write. -/
theorem attachAccesses_vector {base i : Nat} {lengths : Nat → Nat}
    {attached : Attached (ImObject Nat)} {buckets : List (ImVectorBucket Nat)}
    (start : attached.attachedOffset = 0) :
    ∀ access ∈ attachAccesses .vector base lengths i attached buckets, access.2 = 0 := by
  induction buckets generalizing i attached with
  | nil => simp [attachAccesses]
  | cons bucket rest ih =>
      intro access member
      rw [attachAccesses] at member
      split at member
      · exact ih start access member
      · rename_i length nested _
        have start' : (if nested then align attached else attached).attachedOffset = 0 := by
          split <;> simp [align, imAlignOffset, start]
        generalize (if nested then align attached else attached) = moved at start' member
        simp only at member
        split at member
        · cases member
        · rename_i notDue
          have needed := (growSize_ge moved.attachedSize (moved.attachedOffset + length)).2
          have nothing : length = 0 := by
            simp only [Growth.due] at notDue
            omega
          split at member
          · exact ih start' access member
          · rcases List.mem_cons.mp member with rfl | later
            · exact nothing
            · exact ih (by simp [start', nothing]) access later

namespace Fitting

variable {capacity : Nat} {vector : ImVector Nat}

/-- Changing the buckets in use to others without attached values. -/
theorem of_used (fits : Fitting capacity vector) {after : ImVector Nat} (sized : Sized after)
    (size_eq : after.numberOfBuckets = vector.numberOfBuckets)
    (attached_eq : after.attached = vector.attached)
    (used : ∀ bucket ∈ after.buckets.take after.inuse,
      NotAttached bucket.value ∨ bucket ∈ vector.buckets.take vector.inuse) :
    Fitting capacity after := by
  refine ⟨sized, size_eq ▸ fits.small, ?_, ?_⟩
  · intro bucket member access accessed
    rcases used bucket member with given | old
    · rw [attachedAccesses_of_given given] at accessed
      cases accessed
    · have same : attachedAccesses (.vector after) bucket =
          attachedAccesses (.vector vector) bucket := by
        simp only [attachedAccesses, attachedBase, size_eq]
      rw [same] at accessed
      rw [size_eq, attached_eq]
      exact fits.inside bucket old access accessed
  · rw [size_eq, attached_eq]
    exact fits.room

theorem bucket_inside (fits : Fitting capacity vector) {position : Nat}
    (less : position < vector.numberOfBuckets) : Inside capacity (vectorBucketAccess position) := by
  have room := fits.room
  simp only [Inside, vectorBucketAccess, vectorSize] at room ⊢
  omega

theorem used_inside (fits : Fitting capacity vector) : Inside capacity (usedAccess vector) := by
  have room := fits.room
  have inuse_le := fits.sized.inuse_le
  simp only [Inside, usedAccess, vectorSize] at room ⊢
  omega

theorem attached_inside (fits : Fitting capacity vector) {bucket : ImVectorBucket Nat}
    (used : bucket ∈ vector.buckets.take vector.inuse) :
    ∀ access ∈ attachedAccesses (.vector vector) bucket, Inside capacity access :=
  fun access member => Or.inr ((fits.inside bucket used access member).trans fits.room)

theorem free_inside (fits : Fitting capacity vector) {bucket : ImVectorBucket Nat}
    (used : bucket ∈ vector.buckets.take vector.inuse) :
    ∀ access ∈ freeAccesses (.vector vector) bucket, Inside capacity access :=
  fun access member => fits.attached_inside used access (freeAccesses_subset _ _ access member)

theorem of_mem_get (fits : Fitting capacity vector) {position : Int}
    {bucket : ImVectorBucket Nat} (found : imGetElement vector position = some bucket) :
    (0 ≤ position ∧ position < vector.inuse) ∧ position.toNat < vector.numberOfBuckets ∧
      bucket ∈ vector.buckets.take vector.inuse := by
  unfold imGetElement at found
  split at found
  · rename_i range
    have inuse_le := fits.sized.inuse_le
    refine ⟨range, by omega, List.mem_of_getElem? (i := position.toNat) ?_⟩
    rw [List.getElem?_take_of_lt (by omega), found]
  · cases found

theorem add (fits : Fitting capacity vector) {bucket : ImVectorBucket Nat}
    (given : NotAttached bucket.value) (room : vector.inuse < vector.numberOfBuckets) :
    Fitting capacity { vector with
      inuse := succ32 vector.inuse
      buckets := vector.buckets.set vector.inuse bucket } := by
  have stems := append_stems fits.sized room bucket
  refine fits.of_used stems.sized rfl rfl ?_
  intro other member
  rcases stems.buckets other member with rfl | old
  · exact Or.inl given
  · exact Or.inr old

theorem set (fits : Fitting capacity vector) {bucket : ImVectorBucket Nat}
    (given : NotAttached bucket.value) (position : Int) :
    Fitting capacity (imSetElement vector position bucket).1 := by
  unfold imSetElement
  split
  · split
    · refine fits.of_used ⟨by simpa using fits.sized.length_buckets, fits.sized.inuse_le⟩ rfl rfl ?_
      intro other member
      rw [List.take_set] at member
      rcases List.mem_or_eq_of_mem_set member with old | rfl
      · exact Or.inr old
      · exact Or.inl given
    · exact fits
  · exact fits

theorem del (fits : Fitting capacity vector) (position : Int) :
    Fitting capacity (imDelElement vector position).1 := by
  by_cases range : 0 ≤ position ∧ position < vector.inuse
  · have inuse_le := fits.sized.inuse_le
    have length_buckets := fits.sized.length_buckets
    have small := fits.small
    have less : pred32 vector.inuse = vector.inuse - 1 := pred32_eq (by omega) (by omega)
    have moved : (imDelElement vector position).1 = ⟨vector.numberOfBuckets, vector.inuse - 1,
        vector.attached, vector.buckets.take position.toNat ++
          (vector.buckets.take vector.inuse).drop (position.toNat + 1) ++
          vector.buckets.drop (vector.inuse - 1)⟩ := by
      rw [imDelElement, if_pos range, less]
    have kept : (vector.buckets.take position.toNat ++
        (vector.buckets.take vector.inuse).drop (position.toNat + 1)).length =
        vector.inuse - 1 := by
      simp only [List.length_append, List.length_take, List.length_drop]
      omega
    rw [moved]
    refine fits.of_used ⟨?_, (Nat.sub_le _ _).trans inuse_le⟩ rfl rfl ?_
    · simp only
      rw [List.length_append, kept, List.length_drop]
      omega
    · simp only
      rw [List.take_left' kept]
      intro bucket member
      refine Or.inr ?_
      rcases List.mem_append.mp member with early | late
      · exact List.take_subset_take_left _ (by omega) early
      · exact List.mem_of_mem_drop late
  · rw [imDelElement, if_neg range]
    exact fits

theorem empty (fits : Fitting capacity vector) : Fitting capacity (imEmptyVector vector) := by
  refine ⟨⟨fits.sized.length_buckets, Nat.zero_le _⟩, fits.small, ?_, ?_⟩
  · simp [imEmptyVector]
  · exact (Nat.le_add_right _ _).trans fits.room

theorem lookup (fits : Fitting capacity vector) {hop : Hop} {accesses : List Access}
    {found : Option (ImVectorBucket Nat)}
    (looked : ImDuplicate.lookup (.vector vector) hop = some (accesses, found)) :
    (∀ access ∈ accesses, Inside capacity access) ∧
      ∀ bucket, found = some bucket → bucket ∈ vector.buckets.take vector.inuse := by
  cases hop with
  | key key => simp [ImDuplicate.lookup] at looked
  | position position =>
      simp only [ImDuplicate.lookup] at looked
      split at looked
      · rename_i range
        cases looked
        have inuse_le := fits.sized.inuse_le
        have less : position.toNat < vector.numberOfBuckets := by omega
        refine ⟨?_, fun bucket found => (fits.of_mem_get found).2.2⟩
        simpa using fits.bucket_inside less
      · cases looked
        simp

/-- One call stays in the block and leaves a vector that fits again. -/
theorem performVector (fits : Fitting capacity vector) {call : Call} (given : call.Given) :
    (∀ access ∈ (ImDuplicate.performVector vector call).1, Inside capacity access) ∧
      ∀ after, (ImDuplicate.performVector vector call).2 = some after →
        Fitting capacity after := by
  have freed : ∀ access ∈ (usedParts (.vector vector)).flatMap (freeAccesses (.vector vector)),
      Inside capacity access := by
    intro access member
    obtain ⟨bucket, used, visited⟩ := List.mem_flatMap.mp member
    exact fits.free_inside used access visited
  cases call with
  | lookup hop => simp [ImDuplicate.performVector]
  | insert bucket => simp [ImDuplicate.performVector]
  | delete key => simp [ImDuplicate.performVector]
  | add bucket =>
      simp only [ImDuplicate.performVector]
      split
      · rename_i live
        split
        · rename_i room
          rw [imAddElement, addWith_of_room live room]
          simpa using ⟨fits.bucket_inside room, fits.add given room⟩
        · have room := fits.room
          split
          · simp only [List.mem_cons, List.not_mem_nil, Inside, vectorSize] at room ⊢
            refine ⟨?_, by simp⟩
            rintro access (rfl | rfl | none)
            · exact Or.inr (by omega)
            · exact Or.inr (by omega)
            · cases none
          · simpa using fits
      · simpa using fits
  | set position bucket =>
      simp only [ImDuplicate.performVector]
      split
      · split
        · rename_i old found
          obtain ⟨-, less, used⟩ := fits.of_mem_get found
          simp only [List.forall_mem_cons, Option.some.injEq, forall_eq']
          exact ⟨⟨fits.bucket_inside less, fits.free_inside used⟩, fits.set given position⟩
        · simpa using fits
      · simpa using fits
  | del position =>
      simp only [ImDuplicate.performVector]
      split
      · rename_i old found
        obtain ⟨range, less, used⟩ := fits.of_mem_get found
        have inuse_le := fits.sized.inuse_le
        have room := fits.room
        simp only [List.forall_mem_cons, Option.some.injEq, forall_eq']
        refine ⟨⟨Or.inr ?_, fits.free_inside used⟩, fits.del position⟩
        simp only [vectorSize] at room ⊢
        omega
      · simpa using fits
  | empty =>
      simp only [ImDuplicate.performVector, List.forall_mem_cons, Option.some.injEq, forall_eq']
      exact ⟨⟨fits.used_inside, freed⟩, fits.empty⟩
  | destroy =>
      simp only [ImDuplicate.performVector, List.forall_mem_cons]
      exact ⟨⟨fits.used_inside, freed⟩, by simp⟩
  | serialize lengths =>
      simp only [ImDuplicate.performVector, List.forall_mem_cons]
      refine ⟨⟨Or.inr fits.room, fits.used_inside, ?_⟩, by simp⟩
      exact fun access member => Or.inl (attachAccesses_vector rfl access member)

theorem perform (fits : Fitting capacity vector) {call : Call} (given : call.Given) :
    (∀ access ∈ (ImDuplicate.perform (.vector vector) call).1, Inside capacity access) ∧
      ∀ after, (ImDuplicate.perform (.vector vector) call).2 = some after →
        ∃ vector', Fitting capacity vector' ∧ .vector vector' = after := by
  cases call with
  | lookup hop =>
      cases looked : ImDuplicate.lookup (.vector vector) hop with
      | none => simp [ImDuplicate.perform, looked]
      | some result =>
          obtain ⟨inside, used⟩ := fits.lookup looked
          simp only [ImDuplicate.perform, looked, List.forall_mem_append, Option.some.injEq,
            forall_eq']
          refine ⟨⟨inside, ?_⟩, vector, fits, rfl⟩
          intro access member
          obtain ⟨bucket, found, attached⟩ := List.mem_flatMap.mp member
          exact fits.attached_inside (used bucket (Option.mem_toList.mp found)) access attached
  | _ =>
      obtain ⟨inside, next⟩ := fits.performVector given
      simp only [ImDuplicate.perform, Option.map_eq_some_iff]
      refine ⟨inside, ?_⟩
      rintro after ⟨vector', here, rfl⟩
      exact ⟨vector', next vector' here, rfl⟩

theorem accesses_inside (fits : Fitting capacity vector) {calls : List Call}
    (given : ∀ call ∈ calls, call.Given) :
    ∀ access ∈ accesses (.vector vector) calls, Inside capacity access := by
  induction calls generalizing vector with
  | nil => simp [accesses]
  | cons call rest ih =>
      rw [List.forall_mem_cons] at given
      obtain ⟨inside, next⟩ := fits.perform given.1
      rw [accesses, List.forall_mem_append]
      refine ⟨inside, ?_⟩
      split
      · rename_i after performed
        obtain ⟨vector', fits', rfl⟩ := next after performed
        exact ih fits' given.2
      · simp

theorem contained (fits : Fitting capacity vector) : Contained ⟨.vector vector, capacity⟩ :=
  fun _ given => fits.accesses_inside given

end Fitting

/-- A number to fill buckets with. -/
def filler : ImVectorBucket Nat := ⟨2, .num .short 0⟩

/-- Filling a vector up and serialising it visits all buckets and the used part of the attached
area. -/
theorem inside_of_fillUp {capacity count : Nat} {vector : ImVector Nat} (sized : Sized vector)
    (small : vector.numberOfBuckets < 4294967296)
    (fills : vector.inuse + count = vector.numberOfBuckets)
    (inside : ∀ access ∈ accesses (.vector vector)
      (List.replicate count (.add filler) ++ [.serialize fun _ => 0]), Inside capacity access) :
    Inside capacity (vectorSize 0, 32 * vector.numberOfBuckets) ∧
      Inside capacity (vectorSize vector.numberOfBuckets, vector.attached.attachedOffset) := by
  induction count generalizing vector with
  | zero =>
      rw [List.replicate_zero, List.nil_append, accesses, List.forall_mem_append] at inside
      have whole := inside.1
      simp only [perform, performVector, List.forall_mem_cons] at whole
      refine ⟨?_, whole.1⟩
      rw [← fills]
      exact whole.2.1
  | succ count ih =>
      have room : vector.inuse < vector.numberOfBuckets := by omega
      have added : perform (.vector vector) (.add filler) = ([vectorBucketAccess vector.inuse],
          some (.vector { vector with
            inuse := succ32 vector.inuse
            buckets := vector.buckets.set vector.inuse filler })) := by
        have live : filler.value.status = .live := rfl
        simp only [perform, performVector, live, room, imAddElement, addWith_of_room live room,
          if_true, Option.map_some]
      have next : succ32 vector.inuse = vector.inuse + 1 := succ32_eq (by omega)
      rw [List.replicate_succ, List.cons_append, accesses, added, next,
        List.forall_mem_append] at inside
      have sized' : Sized { vector with
          inuse := vector.inuse + 1
          buckets := vector.buckets.set vector.inuse filler } :=
        ⟨by simpa using sized.length_buckets, room⟩
      have later := ih sized' small (by simp only; omega) inside.2
      exact later

theorem room_of_contained {capacity : Nat} {vector : ImVector Nat} (sized : Sized vector)
    (small : vector.numberOfBuckets < 4294967296) (positive : 0 < vector.numberOfBuckets)
    (contained : Contained ⟨.vector vector, capacity⟩) :
    vectorSize vector.numberOfBuckets + vector.attached.attachedOffset ≤ capacity := by
  have inuse_le := sized.inuse_le
  have given : ∀ call ∈ List.replicate (vector.numberOfBuckets - vector.inuse)
      (Call.add filler) ++ [Call.serialize fun _ => 0], call.Given := by
    intro call member
    rcases List.mem_append.mp member with early | late
    · rw [List.eq_of_mem_replicate early]
      trivial
    · rw [List.mem_singleton.mp late]
      trivial
  obtain ⟨buckets, attached⟩ :=
    inside_of_fillUp sized small (by omega) (contained _ given)
  simp only [Inside, vectorSize] at buckets attached ⊢
  omega

/-! ## Hash tables -/

theorem attaching_of_dead {lengths : Nat → Nat} {i : Nat} {bucket : ImVectorBucket Nat}
    (dead : bucket.value.status ≠ .live) : attaching lengths i bucket = none := by
  unfold attaching
  split
  all_goals simp_all [ImValue.status]

/-- A hash table writes a block as long as its attached area there without reallocating. -/
theorem mem_attachAccesses {base i objectSize address : Nat} {lengths : Nat → Nat}
    {attached : Attached (ImObject Nat)} {buckets : List (ImVectorBucket Nat)}
    (start : attached.attachedOffset = 0) (long : sizeofImValue < attached.attachedSize)
    (member : ⟨attached.attachedSize, .externalBlock objectSize address⟩ ∈ buckets)
    (others : ∀ bucket ∈ buckets, bucket.value.status = .live →
      bucket = ⟨attached.attachedSize, .externalBlock objectSize address⟩) :
    (base, attached.attachedSize) ∈
      attachAccesses .hashtable base lengths i attached buckets := by
  induction buckets generalizing i with
  | nil => cases member
  | cons bucket rest ih =>
      rw [List.forall_mem_cons] at others
      by_cases live : bucket.value.status = .live
      · obtain rfl := others.1 live
        have same : growSize attached.attachedSize attached.attachedSize =
            attached.attachedSize := by
          rw [growSize_step, if_pos le_rfl]
        have notDue : ¬ Growth.due .hashtable
            (growSize attached.attachedSize attached.attachedSize) attached := by
          rw [same]
          exact Nat.lt_irrefl _
        simp [attachAccesses, attaching, start, notDue, Nat.not_le.mpr long]
      · rcases List.mem_cons.mp member with rfl | later
        · exact absurd rfl live
        · rw [attachAccesses, attaching_of_dead live]
          exact ih later others.2

theorem last_mem_walkAccesses {table : ImHashtable Nat} (inv : table.Inv (imOps Nat)) :
    ∃ length, 104 ≤ length ∧
      (hashSize (table.numberOfBuckets - 1), length) ∈ walkAccesses table := by
  have positive := inv.prime.pos
  have inside : table.numberOfBuckets - 1 < table.buckets.length := by
    rw [inv.length_buckets]
    omega
  have visited : (table.buckets[table.numberOfBuckets - 1], table.numberOfBuckets - 1) ∈
      table.buckets.zipIdx := by
    rw [List.mk_mem_zipIdx_iff_getElem?]
    exact List.getElem?_eq_getElem inside
  by_cases live : table.buckets[table.numberOfBuckets - 1].value.status = .live
  · refine ⟨128, by omega, List.mem_map.mpr ⟨_, visited, ?_⟩⟩
    exact if_pos live
  · refine ⟨104, le_rfl, List.mem_map.mpr ⟨_, visited, ?_⟩⟩
    exact if_neg live

/-- A block as long as the attached area of a table. -/
def areaBlock (table : ImHashtable Nat) : ImHashBucket Nat where
  valueLength := table.extra.attachedSize
  value := .externalBlock table.extra.attachedSize 0
  key := List.replicate 103 0

/-- Emptying a hash table, inserting a block as long as the attached area and serialising. -/
def overfill (table : ImHashtable Nat) : List Call :=
  [.empty, .insert (areaBlock table), .serialize fun _ => 0]

/-- The block that a duplication makes for a hash table is left by some run of calls. -/
theorem not_contained_hashtable {table : ImHashtable Nat} (inv : table.Inv (imOps Nat)) :
    ¬ Contained ⟨.hashtable table, copySize (.hashtable table)⟩ := by
  intro contained
  have odd := inv.odd
  have positive := inv.prime.two_le
  have size_lt := inv.size_lt
  have less : pred32 table.numberOfBuckets = table.numberOfBuckets - 1 :=
    pred32_eq (by omega) (by omega)
  let emptied := imEmptyHashtable table
  have live : (imOps Nat).status (areaBlock table) = .live := rfl
  obtain ⟨cleared, absent⟩ := inv.clear_spec { table.extra with attachedOffset := 0 }
  obtain ⟨after, position, placed, -, afterSize, afterExtra, -, -, afterHolds⟩ :=
    cleared.place_spec live (absent _) (by simp only [Table.clear]; omega)
  obtain ⟨positions, walked⟩ := exists_examinedPositions cleared (areaBlock table).key
  have found : searched emptied (areaBlock table).key = some positions :=
    walked table.numberOfBuckets (by simp only [Table.clear]; omega)
  have inserted : (perform (.hashtable emptied) (.insert (areaBlock table))).2 =
      some (.hashtable after) := by
    have ample : ¬ pred32 emptied.empty ≤ emptied.numberOfBuckets / 2 := by
      change ¬ pred32 table.numberOfBuckets ≤ table.numberOfBuckets / 2
      omega
    have placed' : emptied.place (imOps Nat) (areaBlock table) = some (after, some position) :=
      placed
    have live' : (areaBlock table).value.status = .live := live
    simp [perform, performHashtable, live', ample, found, placed']
  have inside := contained (overfill table) (by simp [overfill, Call.Given, NotAttached, areaBlock])
  have first : (perform (.hashtable table) .empty).2 = some (.hashtable emptied) := rfl
  rw [overfill, accesses_cons first, accesses_cons inserted, List.forall_mem_append,
    List.forall_mem_append] at inside
  obtain ⟨walk, -, serialized⟩ := inside
  -- The last bucket is visited, so that the attached area is long.
  obtain ⟨length, long, last⟩ := last_mem_walkAccesses inv
  have atLast := walk _ (List.mem_append_left _ last)
  have wide : sizeofImValue < table.extra.attachedSize := by
    simp only [Inside, copySize, less] at atLast
    simp only [sizeofImValue]
    omega
  have size_eq : after.extra.attachedSize = table.extra.attachedSize := by rw [afterExtra]; rfl
  have entry : ⟨after.extra.attachedSize, .externalBlock table.extra.attachedSize 0⟩ ∈
      parts (.hashtable after) := by
    rw [size_eq]
    exact List.mem_map.mpr ⟨areaBlock table, ((afterHolds _ _).mpr (Or.inl ⟨rfl, rfl⟩)).1, rfl⟩
  have others : ∀ part ∈ parts (.hashtable after), part.value.status = .live →
      part = ⟨after.extra.attachedSize, .externalBlock table.extra.attachedSize 0⟩ := by
    intro part member alive
    obtain ⟨bucket, here, rfl⟩ := List.mem_map.mp member
    rcases (afterHolds _ bucket).mp ⟨here, alive, rfl⟩ with ⟨rfl, -⟩ | old
    · rw [size_eq]
      rfl
    · exact absurd old (absent _ _)
  have member : (hashSize after.numberOfBuckets, after.extra.attachedSize) ∈
      attachAccesses .hashtable (hashSize after.numberOfBuckets) (fun _ => 0) 0
        { after.extra with attachedOffset := 0 } (parts (.hashtable after)) :=
    mem_attachAccesses rfl (size_eq ▸ wide) entry others
  have written := serialized (hashSize after.numberOfBuckets, after.extra.attachedSize) <| by
    rw [accesses]
    exact List.mem_append_left _ (List.mem_append_right _ member)
  rw [size_eq, afterSize] at written
  simp only [Inside, copySize, less, Table.clear, hashSize] at written
  omega

end FrameCode.ImDuplicate
