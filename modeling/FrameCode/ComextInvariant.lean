import FrameCode.ComextBancs

/-!
# The response table and its expiry

`CleanTimeout` turns buckets into tombstones from outside of the table module, between the
insertions, deletions and rebuilds of other messages.  The representation invariant holds through
every such history.
-/

namespace FrameCode.ComextBancs

open OpenAddressing Comext PrimeTable QuadraticProbing

variable (hashcode : List UInt8 → Nat)

/-! ## The invariant in terms of the buckets -/

/-- Counters, free buckets, distinct reference ids and probe sequences.  The loop of
`comext_find_element` visits the bucket `(h + i * i) % nb` in its `i`-th round. -/
structure Representation (table : ComextHashtable) : Prop where
  prime : table.numberOfBuckets ∈ primeNumber
  length_buckets : table.buckets.length = table.numberOfBuckets
  inuse_eq : table.inuse = table.buckets.countP fun bucket => decide (bucket.info = .live)
  empty_eq : table.empty = table.buckets.countP fun bucket => decide (bucket.info = .empty)
  half_empty : table.numberOfBuckets / 2 < table.empty
  distinct : ∀ p q (pInside : p < table.buckets.length) (qInside : q < table.buckets.length),
    table.buckets[p].info ≠ .empty → table.buckets[q].info ≠ .empty →
    table.buckets[p].refid = table.buckets[q].refid → p = q
  reachable : ∀ p (inside : p < table.buckets.length), table.buckets[p].info ≠ .empty →
    ∃ k, (hashcode table.buckets[p].refid % table.numberOfBuckets + k * k) %
        table.numberOfBuckets = p ∧
      ∀ i < k, ∀ q (qInside : q < table.buckets.length),
        (hashcode table.buckets[p].refid % table.numberOfBuckets + i * i) %
          table.numberOfBuckets = q → table.buckets[q].info ≠ .empty

variable {hashcode}

theorem Representation.of_inv {table : ComextHashtable} (inv : table.Inv (comextOps hashcode)) :
    Representation hashcode table := by
  have slotEq {p : Nat} (inside : p < table.buckets.length) :
      table.buckets[p] = table.slot (comextOps hashcode) p :=
    (Table.slot_eq_getElem (comextOps hashcode) inside).symm
  constructor
  case prime =>
    obtain ⟨capacity, sized⟩ := inv.sized
    rw [sized]
    exact numberOfBuckets_mem capacity
  case length_buckets => exact inv.length_buckets
  case inuse_eq => exact inv.inuse_eq
  case empty_eq => exact inv.empty_eq
  case half_empty => exact inv.half_empty
  case distinct =>
    intro p q pInside qInside pUsed qUsed sameRefid
    rw [slotEq pInside] at pUsed sameRefid
    rw [slotEq qInside] at qUsed sameRefid
    exact inv.distinct p (inv.length_buckets ▸ pInside) q (inv.length_buckets ▸ qInside) pUsed
      qUsed sameRefid
  case reachable =>
    intro p inside used
    rw [slotEq inside] at used ⊢
    obtain ⟨k, reaches, before⟩ := inv.reachable p (inv.length_buckets ▸ inside) used
    refine ⟨k, reaches, ?_⟩
    rintro i less q qInside rfl
    rw [slotEq qInside]
    exact before i less

/-! ## Expiry -/

section Expiry

variable {table : ComextHashtable} {curTime : Int}

/-- What `CleanTimeout` does to a bucket. -/
def expire (hashcode : List UInt8 → Nat) (curTime : Int) (bucket : ComextBucket) : ComextBucket :=
  if Expired curTime bucket then (comextOps hashcode).erase bucket else bucket

/-- One round of `CleanTimeout`. -/
theorem expire_round (curTime : Int) (inv : table.Inv (comextOps hashcode)) {i : Nat}
    (inside : i < table.numberOfBuckets) :
    let cleaned := if Expired curTime (table.slot (comextOps hashcode) i) then
      (comextDeleteElement hashcode table i).1 else table
    cleaned.Inv (comextOps hashcode) ∧ cleaned.numberOfBuckets = table.numberOfBuckets ∧
      cleaned.inuse ≤ table.inuse ∧
      cleaned.buckets =
        table.buckets.set i (expire hashcode curTime (table.slot (comextOps hashcode) i)) := by
  have listInside : i < table.buckets.length := inv.length_buckets ▸ inside
  by_cases expired : Expired curTime (table.slot (comextOps hashcode) i)
  · obtain ⟨deletedInv, inuse_le⟩ := inv.delete_inv inside
    have deleted : (comextDeleteElement hashcode table i).1 = { table with
        inuse := MachineInt.pred32 table.inuse
        buckets := table.buckets.set i
          ((comextOps hashcode).erase (table.slot (comextOps hashcode) i)) } := by
      rw [comextDeleteElement, Table.delete, if_pos]
      exact expired.1
    rw [if_pos expired, expire, if_pos expired]
    exact ⟨deletedInv, by rw [deleted], inuse_le, by rw [deleted]⟩
  · rw [if_neg expired, expire, if_neg expired]
    refine ⟨inv, rfl, le_rfl, ?_⟩
    rw [Table.slot_eq_getElem _ listInside, List.set_getElem_self]

/-- The loop of `CleanTimeout` up to bucket `n`. -/
theorem cleanTimeout_loop (curTime : Int) (inv : table.Inv (comextOps hashcode)) (n : Nat)
    (inside : n ≤ table.numberOfBuckets) :
    let cleaned := (List.range n).foldl (fun table i =>
      if Expired curTime (table.slot (comextOps hashcode) i) then
        (comextDeleteElement hashcode table i).1
      else table) table
    cleaned.Inv (comextOps hashcode) ∧ cleaned.numberOfBuckets = table.numberOfBuckets ∧
      cleaned.inuse ≤ table.inuse ∧
      cleaned.buckets =
        (table.buckets.take n).map (expire hashcode curTime) ++ table.buckets.drop n := by
  induction n with
  | zero => exact ⟨inv, rfl, le_rfl, rfl⟩
  | succ n ih =>
      obtain ⟨cleanedInv, size_eq, inuse_le, buckets_eq⟩ := ih (by omega)
      have listInside : n < table.buckets.length := by
        rw [inv.length_buckets]
        omega
      have length_eq : ((table.buckets.take n).map (expire hashcode curTime)).length = n := by
        rw [List.length_map, List.length_take, Nat.min_eq_left listInside.le]
      obtain ⟨nextInv, nextSize, nextInuse, nextBuckets⟩ :=
        expire_round curTime cleanedInv (lt_of_lt_of_eq (Nat.lt_of_succ_le inside) size_eq.symm)
      rw [List.range_succ, List.foldl_append]
      refine ⟨nextInv, nextSize.trans size_eq, nextInuse.trans inuse_le, nextBuckets.trans ?_⟩
      rw [Table.slot, buckets_eq, List.drop_eq_getElem_cons listInside,
        List.set_append_right _ _ length_eq.le, List.take_succ_eq_append_getElem listInside]
      rw [List.getD_append_right _ _ _ _ length_eq.le, length_eq, Nat.sub_self, List.set_cons_zero,
        List.getD_cons_zero, List.map_append, List.append_assoc]
      rfl

/-- `CleanTimeout` removes exactly the entries that have expired. -/
theorem cleanTimeout_spec (curTime : Int) (inv : table.Inv (comextOps hashcode)) :
    (cleanTimeout hashcode curTime table).Inv (comextOps hashcode) ∧
      (cleanTimeout hashcode curTime table).inuse ≤ table.inuse ∧
      ∀ refid bucket, (cleanTimeout hashcode curTime table).Holds (comextOps hashcode) refid bucket ↔
        table.Holds (comextOps hashcode) refid bucket ∧ ¬ Expired curTime bucket := by
  obtain ⟨cleanedInv, -, inuse_le, buckets_eq⟩ :=
    cleanTimeout_loop curTime inv table.numberOfBuckets le_rfl
  rw [← inv.length_buckets, List.take_length, List.drop_length, List.append_nil] at buckets_eq
  refine ⟨cleanedInv, inuse_le, ?_⟩
  intro refid bucket
  have member : bucket ∈ (cleanTimeout hashcode curTime table).buckets ↔
      ∃ old ∈ table.buckets, expire hashcode curTime old = bucket := by
    rw [cleanTimeout, ← inv.length_buckets, buckets_eq, List.mem_map]
  rw [Table.Holds, Table.Holds, member]
  constructor
  · rintro ⟨⟨old, here, rfl⟩, live, key_eq⟩
    by_cases expired : Expired curTime old
    · rw [expire, if_pos expired] at live
      cases live
    · rw [expire, if_neg expired] at live key_eq ⊢
      exact ⟨⟨here, live, key_eq⟩, expired⟩
  · rintro ⟨⟨here, live, key_eq⟩, unexpired⟩
    exact ⟨⟨bucket, here, by rw [expire, if_neg unexpired]⟩, live, key_eq⟩

end Expiry

/-! ## Histories of the table -/

/-- What changes the response table. -/
inductive Operation
  | insert (bucket : ComextBucket)
  | delete (position : Nat)
  | rehash
  | empty
  | cleanTimeout (curTime : Int)

/-- The table after an operation; `none` when it leaves the table. -/
def operate (hashcode : List UInt8 → Nat) (table : ComextHashtable) :
    Operation → Option ComextHashtable
  | .insert bucket => (comextInsertElement hashcode table bucket).map Prod.fst
  | .delete position =>
      if position < table.numberOfBuckets then some (comextDeleteElement hashcode table position).1
      else none
  | .rehash => (comextRehashHashtable hashcode table).map Prod.fst
  | .empty => some (comextEmptyHashtable hashcode table)
  | .cleanTimeout curTime => some (cleanTimeout hashcode curTime table)

/-- The tables of all histories with fewer than 499991 live entries before each insertion. -/
inductive ResponseTable (hashcode : List UInt8 → Nat) : ComextHashtable → Prop
  | create (capacity : Int) : ResponseTable hashcode (comextInitializeHashtable hashcode capacity)
  | step {table after : ComextHashtable} (operation : Operation)
      (before : ResponseTable hashcode table)
      (roomy : ∀ bucket, operation = .insert bucket → table.inuse < 499991)
      (operated : operate hashcode table operation = some after) : ResponseTable hashcode after

section Histories

variable {table after : ComextHashtable}

theorem comextRehashHashtable_spec (inv : table.Inv (comextOps hashcode))
    (bounded : table.inuse ≤ 499991) :
    ∃ after, comextRehashHashtable hashcode table = some (after, true) ∧
      after.Inv (comextOps hashcode) ∧ after.inuse = table.inuse ∧
      ∀ refid bucket, after.Holds (comextOps hashcode) refid bucket ↔
        table.Holds (comextOps hashcode) refid bucket := by
  obtain ⟨after, rehashed, afterInv, -, -, afterInuse, -, afterHolds⟩ :=
    inv.rehash_spec bounded table.inuse
  exact ⟨after, rehashed, afterInv, afterInuse, afterHolds⟩

/-- One operation keeps the invariant and the bound on the live entries. -/
theorem operate_inv (inv : table.Inv (comextOps hashcode)) (bounded : table.inuse ≤ 499991)
    {operation : Operation} (roomy : ∀ bucket, operation = .insert bucket → table.inuse < 499991)
    (operated : operate hashcode table operation = some after) :
    after.Inv (comextOps hashcode) ∧ after.inuse ≤ 499991 := by
  cases operation with
  | insert bucket =>
      have room := roomy bucket rfl
      obtain ⟨inserted, position, insertion, insertedInv, inuse_le⟩ :=
        inv.insert_inv room table.inuse bucket
      simp only [operate, comextInsertElement, insertion, Option.map_some, Option.some.injEq]
        at operated
      subst operated
      exact ⟨insertedInv, by omega⟩
  | delete position =>
      rw [operate] at operated
      split at operated
      · cases operated
        obtain ⟨deletedInv, inuse_le⟩ := inv.delete_inv ‹_›
        exact ⟨deletedInv, inuse_le.trans bounded⟩
      · cases operated
  | rehash =>
      obtain ⟨rehashed, rehash_eq, rehashedInv, inuse_eq, -⟩ :=
        comextRehashHashtable_spec inv bounded
      simp only [operate, rehash_eq, Option.map_some, Option.some.injEq] at operated
      subst operated
      exact ⟨rehashedInv, inuse_eq.trans_le bounded⟩
  | empty =>
      cases operated
      exact ⟨(inv.clear_spec _).1, Nat.zero_le _⟩
  | cleanTimeout curTime =>
      cases operated
      obtain ⟨cleanedInv, inuse_le, -⟩ := cleanTimeout_spec curTime inv
      exact ⟨cleanedInv, inuse_le.trans bounded⟩

/-- By induction on the history. -/
theorem ResponseTable.inv (reached : ResponseTable hashcode table) :
    table.Inv (comextOps hashcode) ∧ table.inuse ≤ 499991 := by
  induction reached with
  | create capacity =>
      exact ⟨(Table.create_inv (comextOps hashcode) capacity ()).1, Nat.zero_le _⟩
  | step operation _ roomy operated ih => exact operate_inv ih.1 ih.2 roomy operated

end Histories

/-- Every table of a history satisfies the invariant; searches stay in it, a rebuild keeps the live
buckets, and `CleanTimeout` removes those older than 20 seconds. -/
theorem responseTable_representation {table : ComextHashtable}
    (reached : ResponseTable hashcode table) :
    Representation hashcode table ∧
      (∀ refid, (comextFindElement hashcode table refid).isSome) ∧
      (∀ bucket, table.inuse < 499991 → (comextInsertElement hashcode table bucket).isSome) ∧
      (∃ after, comextRehashHashtable hashcode table = some (after, true) ∧
        ∀ bucket, bucket.info = .live → (bucket ∈ after.buckets ↔ bucket ∈ table.buckets)) ∧
      ∀ curTime bucket, bucket.info = .live →
        (bucket ∈ (cleanTimeout hashcode curTime table).buckets ↔
          bucket ∈ table.buckets ∧ ¬ 20 < curTime - bucket.time) := by
  obtain ⟨inv, bounded⟩ := reached.inv
  refine ⟨.of_inv inv, ?_, ?_, ?_, ?_⟩
  · intro refid
    obtain ⟨k, -, found, -⟩ := inv.find_spec refid
    rw [comextFindElement, found]
    rfl
  · intro bucket room
    obtain ⟨after, position, inserted, -⟩ := inv.insert_inv room table.inuse bucket
    rw [comextInsertElement, inserted]
    rfl
  · obtain ⟨after, rehashed, -, -, afterHolds⟩ := comextRehashHashtable_spec inv bounded
    refine ⟨after, rehashed, ?_⟩
    intro bucket live
    simpa [Table.Holds, comextOps, live] using afterHolds bucket.refid bucket
  · intro curTime bucket live
    obtain ⟨-, -, cleanedHolds⟩ := cleanTimeout_spec curTime inv
    simpa [Table.Holds, comextOps, live, Expired] using cleanedHolds bucket.refid bucket

/-- The bucket of the reference id `"r"`, made at time 0. -/
def earlyBucket : ComextBucket := ⟨.live, [114], 0, noFragments⟩

/-- The entry is gone at time 21. -/
theorem responseTable_representation_expired :
    ∃ after position, comextInsertElement (fun _ => 0)
        (comextInitializeHashtable (fun _ => 0) 500) earlyBucket = some (after, position) ∧
      Representation (fun _ => 0) after ∧
      earlyBucket ∉ (cleanTimeout (fun _ => 0) 21 after).buckets := by
  have created : ResponseTable (fun _ => 0) _ := .create 500
  have roomy : (comextInitializeHashtable (fun _ => 0) 500).inuse < 499991 := Nat.zero_lt_succ _
  obtain ⟨after, position, inserted, -⟩ := created.inv.1.insert_inv roomy 0 earlyBucket
  have reached : ResponseTable (fun _ => 0) after := by
    refine .step (.insert earlyBucket) created (fun _ _ => roomy) ?_
    rw [operate, comextInsertElement]
    exact congrArg (Option.map Prod.fst) inserted
  obtain ⟨represented, -, -, -, expires⟩ := responseTable_representation reached
  refine ⟨after, position, inserted, represented, ?_⟩
  rw [expires 21 earlyBucket rfl]
  rintro ⟨-, young⟩
  exact young (by decide)

end FrameCode.ComextBancs
