import FrameCode.ComextBancs

/-!
# Reassembly of fragmented messages

The fragments of a message reach its handler together and in sequence order,
whatever the order of their arrival and whatever else arrives in between, as long as
the response table has room for the reference ids.  When it has not, a search may leave
the table.
-/

namespace FrameCode.ComextBancs

open OpenAddressing Comext CText ImTypes MachineInt PrimeTable QuadraticProbing

section Steps

variable {hashcode : List UInt8 → Nat}
variable {handle : Handler → Fragments → Nat → Int × Option (List UInt8)}

/-! ## One fragment -/

/-- The fragments that a table holds for a reference id. -/
inductive Collected (hashcode : List UInt8 → Nat) (table : ComextHashtable)
    (refid : List UInt8) : Fragments → Prop
  | absent (absent : ∀ bucket, ¬ table.Holds (comextOps hashcode) refid bucket) :
      Collected hashcode table refid noFragments
  | found {bucket : ComextBucket} (holds : table.Holds (comextOps hashcode) refid bucket) :
      Collected hashcode table refid bucket.fragments

theorem comextDeleteElementByRefid_spec {table : ComextHashtable}
    (inv : table.Inv (comextOps hashcode)) {refid : List UInt8} {bucket : ComextBucket}
    (holds : table.Holds (comextOps hashcode) refid bucket) :
    ∃ after position, comextDeleteElementByRefid hashcode table refid =
        some (after, some position) ∧
      after.Inv (comextOps hashcode) ∧
      ∀ other entry, after.Holds (comextOps hashcode) other entry ↔
        table.Holds (comextOps hashcode) other entry ∧ other ≠ refid := by
  obtain ⟨position, inside, found, rfl⟩ := inv.find_holds holds
  obtain ⟨-, live, keyEq⟩ := holds
  obtain ⟨after, deleted, afterInv, -, -, -, afterHolds⟩ := inv.delete_spec inside live
  refine ⟨after, position, ?_, afterInv, ?_⟩
  · simp [comextDeleteElementByRefid, comextFindElement, comextDeleteElement, found, deleted]
  · rw [← keyEq]
    exact afterHolds

variable (handle) in
/-- `HandleInputMessage` on a bucket of the table. -/
theorem handleInputMessage_spec {response : ComextHashtable}
    (inv : response.Inv (comextOps hashcode)) {bucket : ComextBucket}
    (holds : response.Holds (comextOps hashcode) bucket.refid bucket) :
    ∃ after, handleInputMessage hashcode handle response bucket =
        some (after, replyTo handle bucket.fragments) ∧
      after.Inv (comextOps hashcode) ∧
      (checkFragments 0 bucket.fragments.toList = .missing → after = response) ∧
      (checkFragments 0 bucket.fragments.toList ≠ .missing →
        ∀ other entry, after.Holds (comextOps hashcode) other entry ↔
          response.Holds (comextOps hashcode) other entry ∧ other ≠ bucket.refid) := by
  obtain ⟨after, position, deleted, afterInv, afterHolds⟩ :=
    comextDeleteElementByRefid_spec inv holds
  cases progress : checkFragments 0 bucket.fragments.toList with
  | missing =>
      refine ⟨response, by simp [handleInputMessage, replyTo, progress], inv, fun _ => rfl, ?_⟩
      simp
  | badFlag =>
      refine ⟨after, by simp [handleInputMessage, replyTo, progress, deleted], afterInv, ?_,
        fun _ => afterHolds⟩
      simp
  | tooMany =>
      refine ⟨after, by simp [handleInputMessage, replyTo, progress, deleted], afterInv, ?_,
        fun _ => afterHolds⟩
      simp
  | complete number =>
      refine ⟨after, by simp [handleInputMessage, replyTo, progress, deleted], afterInv, ?_,
        fun _ => afterHolds⟩
      simp

/-- When no bucket has expired, cleaning does nothing. -/
theorem cleanTimeout_of_unexpired {table : ComextHashtable} (curTime : Int)
    (inv : table.Inv (comextOps hashcode))
    (unexpired : ∀ bucket ∈ table.buckets, ¬ Expired curTime bucket) :
    cleanTimeout hashcode curTime table = table := by
  have steps (positions : List Nat) (inside : ∀ i ∈ positions, i < table.numberOfBuckets) :
      positions.foldl (fun table i =>
        if Expired curTime (table.slot (comextOps hashcode) i) then
          (comextDeleteElement hashcode table i).1
        else table) table = table := by
    induction positions with
    | nil => rfl
    | cons i rest ih =>
        have member := Table.slot_mem (comextOps hashcode)
          (inv.length_buckets ▸ inside i List.mem_cons_self)
        rw [List.foldl_cons, if_neg (unexpired _ member)]
        exact ih fun j later => inside j (List.mem_cons_of_mem _ later)
  exact steps _ fun i member => List.mem_range.mp member

/-- What the arrival of a fragment needs: a fragment that fits into its bucket, room
in the table for a new reference id, and no bucket that has expired. -/
structure Admissible (hashcode : List UInt8 → Nat) (arrival : Arrival) (s : ComExt) : Prop where
  legible : Legible arrival.message
  room : (∀ bucket, ¬ s.response.Holds (comextOps hashcode) (referenceID arrival.message)
    bucket) → s.response.inuse < 499991
  unexpired : 20 < arrival.time - s.lastCleanTime →
    ∀ bucket ∈ s.response.buckets, ¬ Expired arrival.cleanTime bucket

theorem cleaned_response {arrival : Arrival} {s : ComExt}
    (inv : s.response.Inv (comextOps hashcode))
    (admissible : Admissible hashcode arrival s) :
    (cleaned hashcode arrival s).response = s.response := by
  unfold cleaned
  split
  · rename_i due
    exact cleanTimeout_of_unexpired _ inv (admissible.unexpired due)
  · rfl

theorem cleaned_lastCleanTime (arrival : Arrival) (s : ComExt) :
    (cleaned hashcode arrival s).lastCleanTime = s.lastCleanTime ∨
      (cleaned hashcode arrival s).lastCleanTime = arrival.time := by
  unfold cleaned
  split
  · exact Or.inr rfl
  · exact Or.inl rfl

/-- The table after the arrival of a fragment that leaves the given fragments for its
reference id. -/
structure Stored (hashcode : List UInt8 → Nat) (before after : ComextHashtable)
    (refid : List UInt8) (fragments : Fragments) : Prop where
  inv : after.Inv (comextOps hashcode)
  kept : checkFragments 0 fragments.toList = .missing →
    Collected hashcode after refid fragments
  removed : checkFragments 0 fragments.toList ≠ .missing →
    ∀ bucket, ¬ after.Holds (comextOps hashcode) refid bucket
  others : ∀ other, other ≠ refid → ∀ bucket,
    after.Holds (comextOps hashcode) other bucket ↔
      before.Holds (comextOps hashcode) other bucket
  grown : (∀ bucket, ¬ before.Holds (comextOps hashcode) refid bucket) →
    checkFragments 0 fragments.toList = .missing → after.inuse = before.inuse + 1

variable (handle) in
/-- Once the bucket is in the table, `HandleInputMessage` finishes the arrival. -/
theorem handleInputMessage_stored {before response : ComextHashtable}
    (inv : response.Inv (comextOps hashcode)) {bucket : ComextBucket}
    (written : ∀ other entry, response.Holds (comextOps hashcode) other entry ↔
      (entry = bucket ∧ bucket.refid = other) ∨
        (before.Holds (comextOps hashcode) other entry ∧ bucket.refid ≠ other))
    (grown : (∀ entry, ¬ before.Holds (comextOps hashcode) bucket.refid entry) →
      response.inuse = before.inuse + 1) :
    ∃ after, handleInputMessage hashcode handle response bucket =
        some (after, replyTo handle bucket.fragments) ∧
      Stored hashcode before after bucket.refid bucket.fragments := by
  have holds := (written bucket.refid bucket).mpr (Or.inl ⟨rfl, rfl⟩)
  obtain ⟨after, handled, afterInv, kept, removed⟩ :=
    handleInputMessage_spec handle inv holds
  have others (other : List UInt8) (different : other ≠ bucket.refid) (entry : ComextBucket) :
      response.Holds (comextOps hashcode) other entry ↔
        before.Holds (comextOps hashcode) other entry := by
    rw [written]
    constructor
    · rintro (⟨-, same⟩ | ⟨holdsBefore, -⟩)
      · exact absurd same.symm different
      · exact holdsBefore
    · exact fun holdsBefore => Or.inr ⟨holdsBefore, different.symm⟩
  refine ⟨after, handled, afterInv, ?_, ?_, ?_, ?_⟩
  · intro missing
    rw [kept missing]
    exact .found holds
  · intro ended entry holdsAfter
    exact ((removed ended _ _).mp holdsAfter).2 rfl
  · intro other different entry
    by_cases missing : checkFragments 0 bucket.fragments.toList = .missing
    · rw [kept missing]
      exact others other different entry
    · rw [removed missing, others other different]
      exact and_iff_left different
  · intro absent missing
    rw [kept missing]
    exact grown absent

variable (handle) in
/-- The arrival of a fragment. -/
theorem inputMessageProcess_spec {arrival : Arrival} {s : ComExt}
    (inv : s.response.Inv (comextOps hashcode)) (admissible : Admissible hashcode arrival s)
    {fragments : Fragments}
    (collected : Collected hashcode s.response (referenceID arrival.message) fragments) :
    ∃ after, inputMessageProcess hashcode handle arrival s =
        some (after, replyTo handle
          (addFragment arrival.message admissible.legible fragments)) ∧
      Stored hashcode s.response after.response (referenceID arrival.message)
        (addFragment arrival.message admissible.legible fragments) ∧
      (after.lastCleanTime = s.lastCleanTime ∨ after.lastCleanTime = arrival.time) := by
  cases collected with
  | absent absent =>
      obtain ⟨position, -, found, dead⟩ := inv.find_absent absent
      have live : (comextOps hashcode).status (newBucket arrival admissible.legible) = .live :=
        rfl
      obtain ⟨response, place, inserted, responseInv, responseInuse, -, responseHolds⟩ :=
        inv.insert_spec (admissible.room absent) s.response.inuse live absent
      have written (other : List UInt8) (entry : ComextBucket) :
          response.Holds (comextOps hashcode) other entry ↔
            (entry = newBucket arrival admissible.legible ∧
              (newBucket arrival admissible.legible).refid = other) ∨
            (s.response.Holds (comextOps hashcode) other entry ∧
              (newBucket arrival admissible.legible).refid ≠ other) := by
        rw [responseHolds]
        refine or_congr_right ⟨fun holds => ⟨holds, ?_⟩, And.left⟩
        rintro rfl
        exact absent _ holds
      obtain ⟨after, handled, stored⟩ :=
        handleInputMessage_stored handle responseInv written fun _ => responseInuse
      have fragmentsEq : (newBucket arrival admissible.legible).fragments =
          addFragment arrival.message admissible.legible noFragments := rfl
      rw [fragmentsEq] at handled
      refine ⟨{ cleaned hashcode arrival s with response := after }, ?_, stored,
        cleaned_lastCleanTime arrival s⟩
      simp [inputMessageProcess, admissible.legible, comextFindElement, found,
        comextRetrieveElement, Table.retrieve, dead, cleaned_response inv admissible,
        comextInsertElement, inserted, handled]
  | @found bucket holds =>
      obtain ⟨position, inside, found, rfl⟩ := inv.find_holds holds
      obtain ⟨-, live, keyEq⟩ := holds
      obtain ⟨bucket, bucketEq⟩ : ∃ bucket : ComextBucket, bucket =
          { s.response.slot (comextOps hashcode) position with
            fragments := addFragment arrival.message admissible.legible
              (s.response.slot (comextOps hashcode) position).fragments } := ⟨_, rfl⟩
      have bucketLive : (comextOps hashcode).status bucket = .live := by rw [bucketEq]; exact live
      have bucketKey : (comextOps hashcode).key bucket =
          (comextOps hashcode).key (s.response.slot (comextOps hashcode) position) := by
        rw [bucketEq]
        rfl
      obtain ⟨responseInv, responseHolds⟩ := inv.update_spec inside live bucketLive bucketKey
      have present : s.response.Holds (comextOps hashcode) bucket.refid
          (s.response.slot (comextOps hashcode) position) :=
        ⟨Table.slot_mem _ (inv.length_buckets ▸ inside), live, bucketKey.symm⟩
      obtain ⟨after, handled, stored⟩ := handleInputMessage_stored handle responseInv
        responseHolds fun absent => absurd present (absent _)
      have refidEq : bucket.refid = referenceID arrival.message := bucketKey.trans keyEq
      have fragmentsEq : addFragment arrival.message admissible.legible
          (s.response.slot (comextOps hashcode) position).fragments = bucket.fragments := by
        rw [bucketEq]
      rw [refidEq] at stored
      rw [fragmentsEq]
      refine ⟨{ s with response := after }, ?_, stored, Or.inl rfl⟩
      simp [inputMessageProcess, admissible.legible, comextFindElement, found,
        comextRetrieveElement, Table.retrieve, live, ← bucketEq, handled]

/-! ## The fragments of a message -/

/-- The fragments of a message in sequence order. -/
structure IsMessage (refid : List UInt8) (fragments : List (List UInt8)) : Prop where
  nonempty : fragments ≠ []
  bounded : fragments.length ≤ 64
  refid : ∀ fragment ∈ fragments, referenceID fragment = refid
  sequence : ∀ k (inside : k < fragments.length), sequence fragments[k] = k + 1
  continues : ∀ fragment ∈ fragments.dropLast, Continues fragment
  ends : ∀ fragment ∈ fragments.getLast?, Ends fragment

theorem arrivedFragments_nil (fragments : List (List UInt8)) :
    arrivedFragments fragments [] = noFragments := by
  ext k inside
  simp [arrivedFragments, noFragments]

theorem arrivedFragments_toList {fragments : List (List UInt8)} (bounded : fragments.length ≤ 64)
    (arrived : List (List UInt8)) :
    (arrivedFragments fragments arrived).toList =
      (fragments.map fun fragment => if fragment ∈ arrived then some fragment else none) ++
        List.replicate (64 - fragments.length) none := by
  apply List.ext_getElem
  · simp
    omega
  · intro k inside _
    by_cases early : k < fragments.length
    · simp [arrivedFragments, early, List.getElem_append_left, Option.filter]
    · rw [List.getElem_append_right (by simpa using early), List.getElem_replicate]
      simp [arrivedFragments, early]

theorem not_ends_of_continues {fragment : List UInt8} (continues : Continues fragment) :
    ¬ Ends fragment := by
  rintro (two | six) <;> rcases continues with zero | four <;> simp_all

/-- As long as a fragment is missing, the loop stops at a gap. -/
theorem checkFragments_missing {fragments arrived : List (List UInt8)}
    (continues : ∀ fragment ∈ fragments.dropLast, Continues fragment) {last : List UInt8}
    (member : last ∈ fragments) (outstanding : last ∉ arrived) (i : Nat)
    (rest : List (Option (List UInt8))) :
    checkFragments i ((fragments.map fun fragment =>
      if fragment ∈ arrived then some fragment else none) ++ rest) = .missing := by
  induction fragments generalizing i with
  | nil => cases member
  | cons fragment fragments ih =>
      rw [List.map_cons, List.cons_append]
      by_cases here : fragment ∈ arrived
      · have later : last ∈ fragments := by
          rcases List.mem_cons.mp member with rfl | later
          · exact absurd here outstanding
          · exact later
        have nonempty : fragments ≠ [] := List.ne_nil_of_mem later
        rw [List.dropLast_cons_of_ne_nil nonempty] at continues
        have first := continues fragment List.mem_cons_self
        rw [if_pos here, checkFragments, if_neg (not_ends_of_continues first), if_pos first]
        exact ih (fun other below => continues other (List.mem_cons_of_mem _ below)) later (i + 1)
      · rw [if_neg here, checkFragments]

/-- Once every fragment has arrived, the loop stops at the last one. -/
theorem checkFragments_complete {fragments : List (List UInt8)} (nonempty : fragments ≠ [])
    (continues : ∀ fragment ∈ fragments.dropLast, Continues fragment)
    (ends : ∀ fragment ∈ fragments.getLast?, Ends fragment) (i : Nat)
    (rest : List (Option (List UInt8))) :
    checkFragments i (fragments.map some ++ rest) = .complete (i + (fragments.length - 1)) := by
  induction fragments generalizing i with
  | nil => exact absurd rfl nonempty
  | cons fragment fragments ih =>
      rw [List.map_cons, List.cons_append, checkFragments]
      cases fragments with
      | nil =>
          rw [if_pos (ends fragment rfl)]
          simp
      | cons second others =>
          rw [List.dropLast_cons_of_ne_nil (List.cons_ne_nil _ _)] at continues
          have first := continues fragment List.mem_cons_self
          rw [if_neg (not_ends_of_continues first), if_pos first,
            ih (List.cons_ne_nil _ _)
              (fun other below => continues other (List.mem_cons_of_mem _ below))
              (fun other isLast => ends other (by rwa [List.getLast?_cons_cons])) (i + 1)]
          simp only [List.length_cons]
          congr 1
          omega

/-- A fragment of the message joins those that have arrived. -/
theorem addFragment_arrived {refid : List UInt8} {fragments arrived : List (List UInt8)}
    (isMessage : IsMessage refid fragments) {message : List UInt8} (member : message ∈ fragments)
    (legible : Legible message) :
    addFragment message legible (arrivedFragments fragments arrived) =
      arrivedFragments fragments (message :: arrived) := by
  obtain ⟨index, inside, rfl⟩ := List.mem_iff_getElem.mp member
  have place := isMessage.sequence index inside
  ext k bound
  rw [addFragment, Vector.getElem_set]
  simp only [arrivedFragments, Vector.getElem_ofFn]
  by_cases here : (sequence fragments[index] - 1).toNat = k
  · have same : index = k := by omega
    subst same
    rw [if_pos here]
    simp [inside, Option.filter]
  · rw [if_neg here]
    by_cases early : k < fragments.length
    · have different : fragments[k] ≠ fragments[index] := by
        intro same
        have other := isMessage.sequence k early
        rw [same] at other
        omega
      simp [early, Option.filter, different]
    · simp [early]

/-! ## Every order of arrival -/

/-- Every arrival is admissible when its turn comes. -/
def AdmissibleAll (hashcode : List UInt8 → Nat)
    (handle : Handler → Fragments → Nat → Int × Option (List UInt8)) :
    List Arrival → ComExt → Prop
  | [], _ => True
  | arrival :: later, s => Admissible hashcode arrival s ∧
      ∀ after reply, inputMessageProcess hashcode handle arrival s = some (after, reply) →
        AdmissibleAll hashcode handle later after

/-- The states of the module over all admissible arrivals. -/
inductive Reachable (hashcode : List UInt8 → Nat)
    (handle : Handler → Fragments → Nat → Int × Option (List UInt8)) : ComExt → Prop
  | start (time : Int) : Reachable hashcode handle (initComExt hashcode time)
  | arrive {s after : ComExt} {arrival : Arrival} {reply : Reply}
      (before : Reachable hashcode handle s) (admissible : Admissible hashcode arrival s)
      (processed : inputMessageProcess hashcode handle arrival s = some (after, reply)) :
      Reachable hashcode handle after

variable (hashcode) in
theorem exists_collected (table : ComextHashtable) (refid : List UInt8) :
    ∃ fragments, Collected hashcode table refid fragments := by
  by_cases absent : ∀ bucket, ¬ table.Holds (comextOps hashcode) refid bucket
  · exact ⟨_, .absent absent⟩
  · push Not at absent
    obtain ⟨bucket, holds⟩ := absent
    exact ⟨_, .found holds⟩

theorem Reachable.inv {s : ComExt} (reachable : Reachable hashcode handle s) :
    s.response.Inv (comextOps hashcode) := by
  induction reachable with
  | start time => exact (Table.create_inv (comextOps hashcode) 500 ()).1
  | @arrive s after arrival reply before admissible processed ih =>
      obtain ⟨fragments, collected⟩ :=
        exists_collected hashcode s.response (referenceID arrival.message)
      obtain ⟨found, processedEq, stored, -⟩ :=
        inputMessageProcess_spec handle ih admissible collected
      cases processed.symm.trans processedEq
      exact stored.inv

theorem AdmissibleAll.take {before later : List Arrival} {s : ComExt}
    (admissible : AdmissibleAll hashcode handle (before ++ later) s) :
    AdmissibleAll hashcode handle before s := by
  induction before generalizing s with
  | nil => trivial
  | cons arrival before ih =>
      exact ⟨admissible.1, fun after reply processed => ih (admissible.2 after reply processed)⟩

theorem AdmissibleAll.drop {before later : List Arrival} {s middle : ComExt}
    {replies : List Reply} (admissible : AdmissibleAll hashcode handle (before ++ later) s)
    (processed : processAll hashcode handle before s = some (middle, replies)) :
    AdmissibleAll hashcode handle later middle := by
  induction before generalizing s replies with
  | nil =>
      cases processed
      exact admissible
  | cons arrival before ih =>
      simp only [processAll, Option.bind_eq_bind, Option.bind_eq_some_iff] at processed
      obtain ⟨first, processedFirst, rest, processedRest, result⟩ := processed
      cases result
      exact ih (admissible.2 _ _ processedFirst) processedRest

theorem processAll_cons {arrival : Arrival} {later : List Arrival} {s first last : ComExt}
    {reply : Reply} {replies : List Reply}
    (processed : inputMessageProcess hashcode handle arrival s = some (first, reply))
    (processedLater : processAll hashcode handle later first = some (last, replies)) :
    processAll hashcode handle (arrival :: later) s = some (last, reply :: replies) := by
  simp [processAll, processed, processedLater]

theorem Collected.of_others {before after : ComextHashtable} {refid : List UInt8}
    {fragments : Fragments} (collected : Collected hashcode before refid fragments)
    (same : ∀ bucket, after.Holds (comextOps hashcode) refid bucket ↔
      before.Holds (comextOps hashcode) refid bucket) :
    Collected hashcode after refid fragments := by
  cases collected with
  | absent absent => exact .absent fun bucket holds => absent bucket ((same bucket).mp holds)
  | found holds => exact .found ((same _).mpr holds)

theorem Collected.exists_holds {table : ComextHashtable} {refid : List UInt8}
    {fragments : Fragments} (collected : Collected hashcode table refid fragments)
    (nonempty : fragments ≠ noFragments) :
    ∃ bucket, table.Holds (comextOps hashcode) refid bucket := by
  cases collected with
  | absent _ => exact absurd rfl nonempty
  | found holds => exact ⟨_, holds⟩

/-- While a fragment of the message is outstanding, its fragments are collected and
every arrival is answered with 0. -/
theorem processAll_collects {refid : List UInt8} {fragments : List (List UInt8)}
    (isMessage : IsMessage refid fragments) {last : List UInt8} (member : last ∈ fragments)
    {before : List Arrival} {s : ComExt} {arrived : List (List UInt8)}
    (inv : s.response.Inv (comextOps hashcode))
    (collected : Collected hashcode s.response refid (arrivedFragments fragments arrived))
    (admissible : AdmissibleAll hashcode handle before s) (outstanding : last ∉ arrived)
    (others : ∀ arrival ∈ before, referenceID arrival.message = refid →
      arrival.message ∈ fragments ∧ arrival.message ≠ last) :
    ∃ middle replies arrivedAfter,
      processAll hashcode handle before s = some (middle, replies) ∧
      List.Forall₂ (fun arrival reply => referenceID arrival.message = refid →
        reply.length = 0 ∧ reply.calls = []) before replies ∧
      middle.response.Inv (comextOps hashcode) ∧
      Collected hashcode middle.response refid (arrivedFragments fragments arrivedAfter) ∧
      ∀ fragment, fragment ∈ arrived ∨
        (∃ arrival ∈ before, referenceID arrival.message = refid ∧ arrival.message = fragment) →
        fragment ∈ arrivedAfter := by
  induction before generalizing s arrived with
  | nil =>
      refine ⟨s, [], arrived, rfl, .nil, inv, collected, ?_⟩
      rintro fragment (here | ⟨arrival, none_, -⟩)
      · exact here
      · cases none_
  | cons arrival before ih =>
      obtain ⟨first, later⟩ := admissible
      have rest : ∀ other ∈ before, referenceID other.message = refid →
          other.message ∈ fragments ∧ other.message ≠ last := fun other below =>
        others other (List.mem_cons_of_mem _ below)
      by_cases mine : referenceID arrival.message = refid
      · obtain ⟨belongs, notLast⟩ := others arrival List.mem_cons_self mine
        obtain ⟨after, processed, stored, -⟩ :=
          inputMessageProcess_spec handle inv first (mine ▸ collected)
        rw [addFragment_arrived isMessage belongs] at processed stored
        have stillOut : last ∉ arrival.message :: arrived := by
          simp [outstanding, notLast.symm]
        have missing : checkFragments 0
            (arrivedFragments fragments (arrival.message :: arrived)).toList = .missing := by
          rw [arrivedFragments_toList isMessage.bounded]
          exact checkFragments_missing isMessage.continues member stillOut 0 _
        obtain ⟨middle, replies, arrivedAfter, processedRest, answered, middleInv, middleCollected,
          gathered⟩ := ih stored.inv (mine ▸ stored.kept missing) (later _ _ processed) stillOut
            rest
        refine ⟨middle, _, arrivedAfter, processAll_cons processed processedRest,
          .cons (fun _ => ?_) answered, middleInv, middleCollected, ?_⟩
        · simp [replyTo, missing]
        · rintro fragment (here | ⟨other, below, otherMine, rfl⟩)
          · exact gathered fragment (Or.inl (List.mem_cons_of_mem _ here))
          · rcases List.mem_cons.mp below with rfl | below
            · exact gathered _ (Or.inl List.mem_cons_self)
            · exact gathered _ (Or.inr ⟨other, below, otherMine, rfl⟩)
      · obtain ⟨theirs, theirCollected⟩ :=
          exists_collected hashcode s.response (referenceID arrival.message)
        obtain ⟨after, processed, stored, -⟩ :=
          inputMessageProcess_spec handle inv first theirCollected
        obtain ⟨middle, replies, arrivedAfter, processedRest, answered, middleInv, middleCollected,
          gathered⟩ := ih stored.inv
            (collected.of_others (stored.others refid (Ne.symm mine))) (later _ _ processed)
            outstanding rest
        refine ⟨middle, _, arrivedAfter, processAll_cons processed processedRest,
          .cons (fun itsMine => absurd itsMine mine) answered, middleInv, middleCollected, ?_⟩
        rintro fragment (here | ⟨other, below, otherMine, rfl⟩)
        · exact gathered fragment (Or.inl here)
        · rcases List.mem_cons.mp below with rfl | below
          · exact absurd otherMine mine
          · exact gathered _ (Or.inr ⟨other, below, otherMine, rfl⟩)

/-- The run answers every fragment of the message but the last to arrive with 0; on
that one the handler is called once, with the fragments in sequence order, and the
reference id leaves the table, where nothing else changes. -/
def Reassembled (hashcode : List UInt8 → Nat)
    (handle : Handler → Fragments → Nat → Int × Option (List UInt8)) (s : ComExt)
    (refid : List UInt8) (fragments : List (List UInt8)) (before : List Arrival)
    (last : Arrival) : Prop :=
  ∃ middle replies after reply,
    processAll hashcode handle before s = some (middle, replies) ∧
    List.Forall₂ (fun arrival reply => referenceID arrival.message = refid →
      reply.length = 0 ∧ reply.calls = []) before replies ∧
    inputMessageProcess hashcode handle last middle = some (after, reply) ∧
    reply.calls = [⟨chooseHandler (jydm (fragments.headD [])),
      Vector.ofFn fun k => fragments[k.val]?, fragments.length - 1⟩] ∧
    (∀ bucket, ¬ after.response.Holds (comextOps hashcode) refid bucket) ∧
    ∀ other, other ≠ refid → ∀ bucket,
      after.response.Holds (comextOps hashcode) other bucket ↔
        middle.response.Holds (comextOps hashcode) other bucket

theorem IsMessage.nodup {refid : List UInt8} {fragments : List (List UInt8)}
    (isMessage : IsMessage refid fragments) : fragments.Nodup := by
  rw [List.nodup_iff_injective_getElem]
  intro first second same
  have firstPlace := isMessage.sequence first.val first.isLt
  have secondPlace := isMessage.sequence second.val second.isLt
  simp only at same
  rw [same] at firstPlace
  exact Fin.ext (by omega)

variable (handle) in
/-- The arrival that completes a message. -/
theorem replyTo_complete {refid : List UInt8} {fragments arrived : List (List UInt8)}
    (isMessage : IsMessage refid fragments) (all : ∀ fragment ∈ fragments, fragment ∈ arrived) :
    checkFragments 0 (arrivedFragments fragments arrived).toList ≠ .missing ∧
      (replyTo handle (arrivedFragments fragments arrived)).calls =
        [⟨chooseHandler (jydm (fragments.headD [])),
          Vector.ofFn fun k => fragments[k.val]?, fragments.length - 1⟩] := by
  have everything : arrivedFragments fragments arrived =
      Vector.ofFn fun k => fragments[k.val]? := by
    ext1 k inside
    simp only [arrivedFragments, Vector.getElem_ofFn]
    by_cases early : k < fragments.length
    · simp [early, Option.filter, all _ (List.getElem_mem early)]
    · simp [early]
  have listed : (fragments.map fun fragment => if fragment ∈ arrived then some fragment else none)
      = fragments.map some :=
    List.map_congr_left fun fragment member => if_pos (all fragment member)
  have progress : checkFragments 0 (arrivedFragments fragments arrived).toList =
      .complete (fragments.length - 1) := by
    rw [arrivedFragments_toList isMessage.bounded, listed,
      checkFragments_complete isMessage.nonempty isMessage.continues isMessage.ends, Nat.zero_add]
  have firstFragment : (arrivedFragments fragments arrived)[0].getD [] =
      fragments.headD [] := by
    rw [everything, Vector.getElem_ofFn]
    cases fragments <;> rfl
  refine ⟨by simp [progress], ?_⟩
  simp only [replyTo, progress, firstFragment]
  rw [everything]

/-- The last fragment of a message completes it, whatever the order of the others was. -/
theorem reassembled_of_arrivals {s : ComExt} (inv : s.response.Inv (comextOps hashcode))
    {refid : List UInt8}
    (absent : ∀ bucket, ¬ s.response.Holds (comextOps hashcode) refid bucket)
    {fragments : List (List UInt8)} (isMessage : IsMessage refid fragments)
    {before : List Arrival} {last : Arrival}
    (arrivals : (((before ++ [last]).filter fun arrival =>
      referenceID arrival.message = refid).map Arrival.message).Perm fragments)
    (lastMine : referenceID last.message = refid)
    (admissible : AdmissibleAll hashcode handle (before ++ [last]) s) :
    Reassembled hashcode handle s refid fragments before last := by
  rw [List.filter_append, List.map_append] at arrivals
  simp only [List.filter_cons, lastMine, decide_true, if_true, List.filter_nil, List.map_cons,
    List.map_nil] at arrivals
  have inFragments (arrival : Arrival) (below : arrival ∈ before)
      (mine : referenceID arrival.message = refid) : arrival.message ∈
        (before.filter fun arrival => referenceID arrival.message = refid).map Arrival.message :=
    List.mem_map.mpr ⟨arrival, List.mem_filter.mpr ⟨below, by simpa using mine⟩, rfl⟩
  have distinct := arrivals.nodup_iff.mpr isMessage.nodup
  have belongs : last.message ∈ fragments :=
    arrivals.mem_iff.mp (List.mem_append_right _ List.mem_cons_self)
  have collected : Collected hashcode s.response refid (arrivedFragments fragments []) := by
    rw [arrivedFragments_nil]
    exact .absent absent
  obtain ⟨middle, replies, arrivedAfter, processed, answered, middleInv, middleCollected,
    gathered⟩ := processAll_collects isMessage belongs inv collected admissible.take
      List.not_mem_nil fun arrival below mine => by
        have member := inFragments arrival below mine
        refine ⟨arrivals.mem_iff.mp (List.mem_append_left _ member), fun same => ?_⟩
        rw [same] at member
        exact (List.nodup_append.mp distinct).2.2 _ member _ List.mem_cons_self rfl
  obtain ⟨lastAdmissible, -⟩ := admissible.drop processed
  obtain ⟨after, processedLast, stored, -⟩ :=
    inputMessageProcess_spec handle middleInv lastAdmissible (lastMine ▸ middleCollected)
  rw [addFragment_arrived isMessage belongs] at processedLast stored
  have all (fragment : List UInt8) (member : fragment ∈ fragments) :
      fragment ∈ last.message :: arrivedAfter := by
    rcases List.mem_append.mp (arrivals.mem_iff.mpr member) with early | final
    · obtain ⟨arrival, filtered, rfl⟩ := List.mem_map.mp early
      obtain ⟨below, mine⟩ := List.mem_filter.mp filtered
      exact List.mem_cons_of_mem _
        (gathered _ (Or.inr ⟨arrival, below, of_decide_eq_true mine, rfl⟩))
    · rw [List.mem_singleton.mp final]
      exact List.mem_cons_self
  obtain ⟨complete, called⟩ := replyTo_complete handle isMessage all
  rw [lastMine] at stored
  exact ⟨middle, replies, after, _, processed, answered, processedLast, called,
    stored.removed complete, stored.others⟩

/-- From every reachable state, in every order of arrival and with any other fragments
in between, a message is reassembled, as long as every arrival is admissible. -/
theorem message_reassembled {s : ComExt} (reachable : Reachable hashcode handle s)
    {refid : List UInt8}
    (absent : ∀ bucket, ¬ s.response.Holds (comextOps hashcode) refid bucket)
    {fragments : List (List UInt8)} (isMessage : IsMessage refid fragments)
    {before : List Arrival} {last : Arrival}
    (arrivals : (((before ++ [last]).filter fun arrival =>
      referenceID arrival.message = refid).map Arrival.message).Perm fragments)
    (lastMine : referenceID last.message = refid)
    (admissible : AdmissibleAll hashcode handle (before ++ [last]) s) :
    Reassembled hashcode handle s refid fragments before last :=
  reassembled_of_arrivals reachable.inv absent isMessage arrivals lastMine admissible

end Steps

/-! ## Concrete fragments -/

/-- A fragment of a transaction that has no handler of its own, with the last digit of
its sequence number, its flag, its id and its body. -/
def sampleFragment (digit flag : UInt8) (uuid body : List UInt8) : List UInt8 :=
  literal "A0126" ++ List.replicate 24 48 ++ (literal "000" ++ [digit]) ++
    List.replicate 24 48 ++ literal "000000" ++ List.replicate 20 48 ++ [flag] ++
    List.replicate 11 48 ++ (uuid ++ body)

section Samples

variable {digit byte : UInt8} {uuid body : List UInt8}

theorem sequence_sample :
    sequence (sampleFragment digit byte uuid body) = atoi (literal "000" ++ [digit]) := rfl

theorem referenceID_sample (size : uuid.length = 32) (text : ∀ c ∈ uuid, c ≠ 0) :
    referenceID (sampleFragment digit byte uuid body) = uuid := by
  have code : jydm (sampleFragment digit byte uuid body) = literal "000000" := rfl
  have tail : (sampleFragment digit byte uuid body).drop (protocolHeaderLength + uuidOffset) =
      uuid ++ body := rfl
  have other : ¬ iCheckSafJYDM (literal "000000") = 0 := by decide
  have whole : cString 32 uuid = uuid := by
    rw [cString, ← size, List.take_length, List.takeWhile_eq_self_iff]
    simpa using text
  rw [referenceID, code, if_neg other, tail, ← size, List.take_left, size, whole]

theorem legible_sample (size : uuid.length = 32)
    (low : 1 ≤ atoi (literal "000" ++ [digit])) (high : atoi (literal "000" ++ [digit]) ≤ 64) :
    Legible (sampleFragment digit byte uuid body) := by
  refine ⟨?_, low, high⟩
  have length_eq : (sampleFragment digit byte uuid body).length = 95 + (uuid ++ body).length := by
    simp only [sampleFragment, List.length_append]
    rfl
  rw [length_eq, List.length_append, size]
  simp only [protocolHeaderLength, uuidOffset]
  omega

theorem sample_ne_sample {digit' byte' : UInt8} {uuid' body' : List UInt8}
    (different : byte ≠ byte') :
    sampleFragment digit byte uuid body ≠ sampleFragment digit' byte' uuid' body' := by
  intro same
  have flags := congrArg flag same
  exact different flags

/-- Two fragments that make up a message. -/
theorem isMessage_sample (size : uuid.length = 32) (text : ∀ c ∈ uuid, c ≠ 0)
    (firstBody secondBody : List UInt8) :
    IsMessage uuid [sampleFragment 49 48 uuid firstBody, sampleFragment 50 50 uuid secondBody] := by
  refine ⟨List.cons_ne_nil _ _, by simp, ?_, ?_, ?_, ?_⟩
  · intro fragment member
    rcases List.mem_pair.mp member with rfl | rfl <;> exact referenceID_sample size text
  · intro k inside
    have index : k = 0 ∨ k = 1 := by
      simp only [List.length_cons, List.length_nil] at inside
      omega
    rcases index with rfl | rfl
    · change sequence (sampleFragment 49 48 uuid firstBody) = 1
      rw [sequence_sample]
      decide
    · change sequence (sampleFragment 50 50 uuid secondBody) = 2
      rw [sequence_sample]
      decide
  · intro fragment member
    rw [List.mem_singleton.mp member]
    exact Or.inl rfl
  · intro fragment isLast
    cases isLast
    exact Or.inl rfl

/-- A fragment that is a message by itself. -/
theorem isMessage_single (size : uuid.length = 32) (text : ∀ c ∈ uuid, c ≠ 0)
    (body : List UInt8) : IsMessage uuid [sampleFragment 49 50 uuid body] := by
  refine ⟨List.cons_ne_nil _ _, by simp, ?_, ?_, by simp, ?_⟩
  · intro fragment member
    rw [List.mem_singleton.mp member]
    exact referenceID_sample size text
  · intro k inside
    obtain rfl : k = 0 := by simpa using inside
    change sequence (sampleFragment 49 50 uuid body) = 1
    rw [sequence_sample]
    decide
  · intro fragment isLast
    cases isLast
    exact Or.inl rfl

end Samples

/-- The reference id of the samples. -/
def sampleId : List UInt8 := List.replicate 32 65

def sampleFirst : List UInt8 := sampleFragment 49 48 sampleId (literal "01ab")

def sampleSecond : List UInt8 := sampleFragment 50 50 sampleId (literal "01cd")

theorem nonzero_sampleId : ∀ c ∈ sampleId, c ≠ 0 := by
  intro c member
  rw [List.eq_of_mem_replicate member]
  decide

theorem isMessage_sampleId : IsMessage sampleId [sampleFirst, sampleSecond] :=
  isMessage_sample rfl nonzero_sampleId _ _

theorem legible_samples : Legible sampleFirst ∧ Legible sampleSecond :=
  ⟨legible_sample rfl (by decide) (by decide), legible_sample rfl (by decide) (by decide)⟩

/-- With the second fragment alone, the message is not complete. -/
theorem second_alone :
    checkFragments 0 (arrivedFragments [sampleFirst, sampleSecond] [sampleSecond]).toList =
        .missing ∧
      arrivedFragments [sampleFirst, sampleSecond] [sampleSecond] ≠ noFragments := by
  have isMessage := isMessage_sampleId
  constructor
  · rw [arrivedFragments_toList isMessage.bounded]
    exact checkFragments_missing isMessage.continues List.mem_cons_self
      (fun same => sample_ne_sample (by decide) (List.mem_singleton.mp same)) 0 _
  · intro nothing
    have place := congrArg (·[1]) nothing
    simp [arrivedFragments, noFragments, Option.filter] at place

/-- The first fragment to arrive of a message does not complete it when there is
another one. -/
theorem addFragment_missing {refid : List UInt8} {fragments : List (List UInt8)}
    (isMessage : IsMessage refid fragments) {message other : List UInt8}
    (member : message ∈ fragments) (legible : Legible message) (otherMember : other ∈ fragments)
    (different : other ≠ message) :
    checkFragments 0 (addFragment message legible noFragments).toList = .missing := by
  rw [← arrivedFragments_nil fragments, addFragment_arrived isMessage member,
    arrivedFragments_toList isMessage.bounded]
  exact checkFragments_missing isMessage.continues otherMember (by simpa using different) 0 _

/-- `hashcode` on a machine that takes the distance of a shift modulo 32. -/
def sampleHashcode (refid : List UInt8) : Nat :=
  refid.foldl (fun hashcode c =>
    toUInt32 ((toUInt32 (hashcode * 32) ||| hashcode >>> 31) + c.toNat)) 0

/-- What `iHandleNoOutputcode` makes of fragments with the output code `01`. -/
def sampleHandle (_ : Handler) (fragments : Fragments) (number : Nat) :
    Int × Option (List UInt8) :=
  let parts := (fragments.toList.take (number + 1)).map fun fragment => fragment.getD []
  let message := (parts.headD []).take 129 ++ (parts.map (List.drop 129)).flatten
  (message.length, some message)

/-- Two fragments that arrive in reverse order. -/
theorem message_reassembled_reversed :
    Reassembled sampleHashcode sampleHandle (initComExt sampleHashcode 0) (List.replicate 32 65)
      [sampleFragment 49 48 (List.replicate 32 65) (literal "01ab"),
        sampleFragment 50 50 (List.replicate 32 65) (literal "01cd")]
      [⟨sampleFragment 50 50 (List.replicate 32 65) (literal "01cd"), 0, 0⟩]
      ⟨sampleFragment 49 48 (List.replicate 32 65) (literal "01ab"), 0, 0⟩ := by
  have size : (List.replicate 32 (65 : UInt8)).length = 32 := rfl
  have text : ∀ c ∈ List.replicate 32 (65 : UInt8), c ≠ 0 := by
    intro c member
    rw [List.eq_of_mem_replicate member]
    decide
  have created := Table.create_inv (comextOps sampleHashcode) 500 ()
  have isMessage := isMessage_sample size text (literal "01ab") (literal "01cd")
  have first : Admissible sampleHashcode
      ⟨sampleFragment 50 50 (List.replicate 32 65) (literal "01cd"), 0, 0⟩
      (initComExt sampleHashcode 0) :=
    ⟨legible_sample size (by decide) (by decide), fun _ => by decide, fun due => by
      simp [initComExt] at due⟩
  have second (after : ComExt) (reply : Reply) (processed : inputMessageProcess sampleHashcode
      sampleHandle ⟨sampleFragment 50 50 (List.replicate 32 65) (literal "01cd"), 0, 0⟩
      (initComExt sampleHashcode 0) = some (after, reply)) :
      Admissible sampleHashcode
        ⟨sampleFragment 49 48 (List.replicate 32 65) (literal "01ab"), 0, 0⟩ after := by
    obtain ⟨found, processedEq, stored, clock⟩ :=
      inputMessageProcess_spec sampleHandle created.1 first (.absent (created.2 _))
    cases processed.symm.trans processedEq
    refine ⟨legible_sample size (by decide) (by decide), fun _ => ?_, fun due => ?_⟩
    · have missing := addFragment_missing isMessage (List.mem_cons_of_mem _ List.mem_cons_self)
        first.legible List.mem_cons_self (sample_ne_sample (by decide))
      rw [stored.grown (created.2 _) missing]
      decide
    · rw [or_self_iff.mp clock] at due
      exact absurd due (by decide)
  refine message_reassembled (.start 0) (created.2 _) isMessage ?_ (referenceID_sample size text)
    ⟨first, fun after reply processed => ⟨second after reply processed, fun _ _ _ => trivial⟩⟩
  simp only [List.cons_append, List.nil_append, List.filter_cons, List.filter_nil,
    referenceID_sample size text, decide_true, if_true, List.map_cons, List.map_nil]
  exact List.Perm.swap _ _ _

/-! ## More reference ids than the table can hold -/

/-- The arrival of the first of two fragments. -/
def opening (uuid : List UInt8) : Arrival :=
  ⟨sampleFragment 49 48 uuid (literal "01ab"), 0, 0⟩

section Opening

variable {uuid : List UInt8}

theorem legible_opening (size : uuid.length = 32) : Legible (opening uuid).message :=
  legible_sample size (by decide) (by decide)

theorem referenceID_opening (size : uuid.length = 32) (text : ∀ c ∈ uuid, c ≠ 0) :
    referenceID (opening uuid).message = uuid :=
  referenceID_sample size text

theorem opening_missing (size : uuid.length = 32) (text : ∀ c ∈ uuid, c ≠ 0) :
    checkFragments 0
        (addFragment (opening uuid).message (legible_opening size) noFragments).toList =
      .missing :=
  addFragment_missing (isMessage_sample size text (literal "01ab") []) List.mem_cons_self
    (legible_opening size) (List.mem_cons_of_mem _ List.mem_cons_self)
    (sample_ne_sample (by decide))

end Opening

section Overflow

variable {hashcode : List UInt8 → Nat}
variable {handle : Handler → Fragments → Nat → Int × Option (List UInt8)}

variable (handle) in
theorem processAll_opening {s : ComExt} {ids done : List (List UInt8)}
    (inv : s.response.Inv (comextOps hashcode)) (clock : s.lastCleanTime = 0)
    (count : s.response.inuse = done.length)
    (among : s.response.KeysAmong (comextOps hashcode) done)
    (texts : ∀ uuid ∈ ids, uuid.length = 32 ∧ ∀ c ∈ uuid, c ≠ 0)
    (fresh : (ids ++ done).Nodup) (few : ids.length + done.length ≤ 499991) :
    ∃ after replies, processAll hashcode handle (ids.map opening) s = some (after, replies) ∧
      after.response.Inv (comextOps hashcode) ∧ after.lastCleanTime = 0 ∧
      after.response.inuse = ids.length + done.length ∧
      after.response.KeysAmong (comextOps hashcode) (ids ++ done) := by
  induction ids generalizing s done with
  | nil => exact ⟨s, [], rfl, inv, clock, by simpa using count, among⟩
  | cons uuid ids ih =>
      obtain ⟨new, rest⟩ := List.nodup_cons.mp fresh
      obtain ⟨size, text⟩ := texts uuid List.mem_cons_self
      have sameId := referenceID_opening size text
      simp only [List.length_cons] at few
      have absent (bucket : ComextBucket) :
          ¬ s.response.Holds (comextOps hashcode) (referenceID (opening uuid).message) bucket := by
        intro holds
        rw [sameId] at holds
        exact new (List.mem_append_right _ (among _ _ holds))
      have admissible : Admissible hashcode (opening uuid) s :=
        ⟨legible_opening size, fun _ => by omega, fun due => by simp [clock, opening] at due⟩
      obtain ⟨after, processed, stored, time⟩ :=
        inputMessageProcess_spec handle inv admissible (.absent absent)
      have afterAmong : after.response.KeysAmong (comextOps hashcode) (uuid :: done) := by
        intro refid bucket holds
        by_cases mine : refid = referenceID (opening uuid).message
        · exact mine.trans sameId ▸ List.mem_cons_self
        · exact List.mem_cons_of_mem _ (among _ _ ((stored.others _ mine _).mp holds))
      have moved : (ids ++ uuid :: done).Perm (uuid :: (ids ++ done)) := List.perm_middle
      obtain ⟨last, replies, processedRest, lastInv, lastClock, lastCount, lastAmong⟩ :=
        ih stored.inv (by rcases time with time | time <;> simp [time, clock, opening])
          (by rw [stored.grown absent (opening_missing size text), count, List.length_cons])
          afterAmong (fun other member => texts other (List.mem_cons_of_mem _ member))
          (moved.nodup_iff.mpr fresh) (by simp only [List.length_cons]; omega)
      refine ⟨last, _, processAll_cons processed processedRest, lastInv, lastClock, ?_,
        fun refid bucket holds => moved.mem_iff.mp (lastAmong refid bucket holds)⟩
      rw [lastCount]
      simp only [List.length_cons]
      omega

variable (handle) in
/-- The arrival after which the table has no free slot left on the probe sequence of
its ids. -/
theorem opening_exhausts {s : ComExt} {ids : List (List UInt8)} {first second : List UInt8}
    {start : Nat} (inv : s.response.Inv (comextOps hashcode)) (clock : s.lastCleanTime = 0)
    (full : s.response.inuse = 499991)
    (among : s.response.KeysAmong (comextOps hashcode) ids)
    (size : first.length = 32) (text : ∀ c ∈ first, c ≠ 0)
    (fresh : (second :: first :: ids).Nodup)
    (collide : ∀ uuid ∈ second :: first :: ids, hashcode uuid % 999983 = start) :
    ∃ after reply, inputMessageProcess hashcode handle (opening first) s = some (after, reply) ∧
      comextFindElement hashcode after.response second = none := by
  have sameId := referenceID_opening size text
  have absent (bucket : ComextBucket) :
      ¬ s.response.Holds (comextOps hashcode) (referenceID (opening first).message) bucket := by
    intro holds
    rw [sameId] at holds
    exact (List.nodup_cons.mp (List.nodup_cons.mp fresh).2).1 (among _ _ holds)
  obtain ⟨place, -, found, dead⟩ := inv.find_absent absent
  obtain ⟨bucket, made⟩ : ∃ bucket, newBucket (opening first) (legible_opening size) = bucket :=
    ⟨_, rfl⟩
  have bucketKey : (comextOps hashcode).key bucket = first := made ▸ sameId
  have live : (comextOps hashcode).status bucket = .live := made ▸ rfl
  -- The kernel computes with literals only in closed terms, and the operations are not closed.
  have limit : (comextOps hashcode).limit = 499991 := rfl
  have largest : 2 * (comextOps hashcode).limit + 1 = 999983 := by rw [limit]
  rw [← bucketKey] at fresh collide
  rw [← largest] at collide
  obtain ⟨after, position, placed, leaves⟩ := inv.insert_exhausts
    (fun capacity => largest.symm ▸ primeNumber_le (numberOfBuckets_mem capacity)) full
    s.response.inuse among live fresh collide
  have clean : cleaned hashcode (opening first) s = s := by simp [cleaned, clock, opening]
  have handled : handleInputMessage hashcode handle after bucket =
      some (after, ⟨0, none, []⟩) := by
    have missing : checkFragments 0 bucket.fragments.toList = .missing :=
      made ▸ opening_missing size text
    simp [handleInputMessage, missing]
  refine ⟨{ s with response := after }, ⟨0, none, []⟩, ?_, leaves⟩
  simp [inputMessageProcess, legible_opening size, comextFindElement, found,
    comextRetrieveElement, Table.retrieve, dead, clean, comextInsertElement, made, placed, handled]

theorem processAll_append {first second : List Arrival} {s middle last : ComExt}
    {replies later : List Reply}
    (processed : processAll hashcode handle first s = some (middle, replies))
    (processedLater : processAll hashcode handle second middle = some (last, later)) :
    processAll hashcode handle (first ++ second) s = some (last, replies ++ later) := by
  induction first generalizing s replies with
  | nil =>
      cases processed
      exact processedLater
  | cons arrival first ih =>
      simp only [processAll, Option.bind_eq_bind, Option.bind_eq_some_iff] at processed
      obtain ⟨next, processedFirst, rest, processedRest, result⟩ := processed
      cases result
      exact processAll_cons processedFirst (ih processedRest)

/-- Without a bound on the reference ids a message may never be reassembled, whatever
the hash function: when 499992 other ids start at one position, the search for
another such id leaves the table. -/
theorem not_reassembled_overflow :
    ¬ ∃ hashcode handle, ∀ (refid : List UInt8) (fragments : List (List UInt8))
      (before : List Arrival) (last : Arrival), IsMessage refid fragments →
      (((before ++ [last]).filter fun arrival =>
        referenceID arrival.message = refid).map Arrival.message).Perm fragments →
      referenceID last.message = refid →
      (∀ arrival ∈ before ++ [last],
        Legible arrival.message ∧ arrival.time = 0 ∧ arrival.cleanTime = 0) →
      Reassembled hashcode handle (initComExt hashcode 0) refid fragments before last := by
  rintro ⟨hashcode, handle, reassembles⟩
  obtain ⟨second, first, ids, start, count, fresh, words⟩ := exists_overfilling hashcode
  obtain ⟨secondNew, firstFresh⟩ := List.nodup_cons.mp fresh
  obtain ⟨⟨size, text⟩, -⟩ := words second List.mem_cons_self
  obtain ⟨⟨firstSize, firstText⟩, -⟩ := words first (List.mem_cons_of_mem _ List.mem_cons_self)
  have created := Table.create_inv (comextOps hashcode) 500 ()
  have initial : (initComExt hashcode 0).response.Inv (comextOps hashcode) := created.1
  have nothing : (initComExt hashcode 0).response.KeysAmong (comextOps hashcode) [] :=
    fun refid bucket holds => absurd holds (created.2 refid bucket)
  have distinct : (ids ++ []).Nodup := by simpa using (List.nodup_cons.mp firstFresh).2
  have texts (uuid : List UInt8) (member : uuid ∈ first :: ids) :
      uuid.length = 32 ∧ ∀ c ∈ uuid, c ≠ 0 := (words uuid (List.mem_cons_of_mem _ member)).1
  obtain ⟨s, replies, filled, inv, clock, inuse, among⟩ :=
    processAll_opening handle initial rfl rfl nothing
      (fun uuid member => texts uuid (List.mem_cons_of_mem _ member)) distinct (by simp; omega)
  rw [List.append_nil] at among
  obtain ⟨middle, reply, opened, leaves⟩ :=
    opening_exhausts handle inv clock (by simp [inuse]; omega) among firstSize firstText fresh
      fun uuid member => (words uuid member).2
  have final : processAll hashcode handle [opening first] s = some (middle, [reply]) :=
    processAll_cons opened rfl
  have processed := processAll_append filled final
  have refidEq : referenceID (sampleFragment 49 50 second []) = second :=
    referenceID_sample size text
  have others : ∀ arrival ∈ ids.map opening ++ [opening first],
      ∃ uuid ∈ first :: ids, arrival = opening uuid := by
    intro arrival member
    rcases List.mem_append.mp member with early | final
    · obtain ⟨uuid, idMember, rfl⟩ := List.mem_map.mp early
      exact ⟨uuid, List.mem_cons_of_mem _ idMember, rfl⟩
    · exact ⟨first, List.mem_cons_self, List.mem_singleton.mp final⟩
  obtain ⟨found, answers, after, answer, foundEq, -, ended, -⟩ :=
    reassembles second [sampleFragment 49 50 second []] (ids.map opening ++ [opening first])
      ⟨sampleFragment 49 50 second [], 0, 0⟩
      (isMessage_single size text []) (by
        rw [List.filter_append, List.filter_eq_nil_iff.mpr]
        · simp [refidEq]
        · intro arrival member
          obtain ⟨uuid, idMember, rfl⟩ := others arrival member
          obtain ⟨idSize, idText⟩ := texts uuid idMember
          rw [referenceID_opening idSize idText, decide_eq_true_iff]
          rintro rfl
          exact secondNew idMember) refidEq (by
        intro arrival member
        rcases List.mem_append.mp member with early | final
        · obtain ⟨uuid, idMember, rfl⟩ := others arrival early
          exact ⟨legible_opening (texts uuid idMember).1, rfl, rfl⟩
        · rw [List.mem_singleton.mp final]
          exact ⟨legible_sample size (by decide) (by decide), rfl, rfl⟩)
  cases foundEq.symm.trans processed
  simp [inputMessageProcess, refidEq, leaves] at ended

end Overflow

end FrameCode.ComextBancs
