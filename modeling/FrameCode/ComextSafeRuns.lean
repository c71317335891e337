import FrameCode.ComextSafety

/-!
# Reassembly within bounds

`GetMessageLength` only makes sure that a message has as many bytes as its length field says.
A run of `InputMessageProcess` stays within its memory when each message has its header fields
and a sequence number from 1 to 64, and each message that completes a set of fragments leaves
its handler with fragments that it can merge.
-/

namespace FrameCode.ComextBancs

open CheckedCopy OpenAddressing Comext CText

/-! ## The server -/

/-- `MSGMAX`. -/
def msgMax : Int := 1048576

/-- `GetMessageLength` on the bytes that have arrived, without the lookup of the session. -/
def getMessageLength (message : List UInt8) : Int :=
  if message.length < 5 then 0
  else if message[0]? ≠ some 45 ∧ message[0]? ≠ some 65 then -1
  else
    let len := atoi ((message.drop 1).take 4)
    if 0 ≤ len ∧ len ≤ msgMax - 5 then len + 5 else -1

/-- The server takes the bytes for one message. -/
def Accepted (message : List UInt8) : Prop :=
  0 < getMessageLength message ∧ getMessageLength message = message.length

instance (message : List UInt8) : Decidable (Accepted message) :=
  inferInstanceAs (Decidable (_ ∧ _))

/-- A handler on the fragments of a bucket. -/
def handleFragments (handler : Handler) (bucket : Fragments) (number : Nat) : Option Merged := do
  let fragments ← (bucket.toList.take (number + 1)).mapM id
  runHandler fragments number handler

/-- What a handler returns and the message that it leaves. -/
def handle (handler : Handler) (bucket : Fragments) (number : Nat) : Int × Option (List UInt8) :=
  match handleFragments handler bucket number with
  | none => (-1, none)
  | some merged =>
      (merged.length, merged.message.map fun memory =>
        (memory.take merged.length.toNat).map fun cell => cell.getD 0)

/-! ## Steps within bounds -/

section Steps

variable (hashcode : List UInt8 → Nat)

/-- The fragments that have been stored for a reference id. -/
def storedFragments (s : ComExt) (refid : List UInt8) : Fragments :=
  match comextFindElement hashcode s.response refid with
  | none => noFragments
  | some position =>
      match comextRetrieveElement hashcode s.response position with
      | none => noFragments
      | some bucket => bucket.fragments

/-- The header fields are within the message, the index of the fragment is within the array,
and the handler that is called makes all its copies within bounds. -/
structure StepSafe (arrival : Arrival) (s : ComExt) : Prop where
  headers : protocolHeaderLength + uuidOffset + 32 ≤ arrival.message.length
  index : 0 ≤ sequence arrival.message - 1 ∧ sequence arrival.message - 1 < 64
  copies : ∀ t reply, inputMessageProcess hashcode handle arrival s = some (t, reply) →
    ∀ call ∈ reply.calls, (handleFragments call.handler call.fragments call.number).isSome

/-- The message has its header fields and a sequence number within the array, and the
fragments that it completes, if it does, are what their handler needs. -/
structure Contained (arrival : Arrival) (s : ComExt) : Prop where
  legible : Legible arrival.message
  covered : ∀ number fragments final,
    checkFragments 0 (addFragment arrival.message legible
      (storedFragments hashcode s (referenceID arrival.message))).toList = .complete number →
    (addFragment arrival.message legible
      (storedFragments hashcode s (referenceID arrival.message))).toList.take (number + 1) =
        fragments.map some →
    fragments.getLast? = some final →
    Covered fragments final (chooseHandler (jydm (fragments.headD [])))

end Steps

/-! ## Complete sets of fragments -/

/-- A fragment whose length field is right and that has its header fields. -/
def Headed (message : List UInt8) : Prop := Measured message ∧ 127 ≤ message.length

/-- The fragments up to the first one that is flagged as the last. -/
theorem exists_fragments {list : List (Option (List UInt8))} {i number : Nat}
    (complete : checkFragments i list = .complete number) :
    i ≤ number ∧ ∃ fragments final, list.take (number + 1 - i) = fragments.map some ∧
      fragments.length = number + 1 - i ∧ Flagged fragments final := by
  induction list generalizing i with
  | nil => cases complete
  | cons entry list ih =>
      cases entry with
      | none => cases complete
      | some fragment =>
          rw [checkFragments] at complete
          split at complete
          · rename_i ends
            cases complete
            refine ⟨le_rfl, [fragment], fragment, ?_, ?_, rfl, ends, List.forall_mem_nil _⟩
            · simp
            · simp
          · rename_i early
            split at complete
            · obtain ⟨later, fragments, final, taken, length, flagged⟩ := ih complete
              have count : number + 1 - i = number + 1 - (i + 1) + 1 := by omega
              have nonempty : fragments ≠ [] := List.ne_nil_of_mem flagged.mem
              refine ⟨by omega, fragment :: fragments, final, ?_, ?_, ?_, flagged.ends, ?_⟩
              · rw [count, List.take_succ_cons, taken, List.map_cons]
              · rw [count, List.length_cons, length]
              · rw [List.getLast?_cons_of_ne_nil nonempty, flagged.last]
              · rw [List.dropLast_cons_of_ne_nil nonempty, List.forall_mem_cons]
                exact ⟨early, flagged.earlier⟩
            · cases complete

theorem mapM_id_map_some {α : Type} (list : List α) : (list.map some).mapM id = some list := by
  induction list with
  | nil => rfl
  | cons first rest ih =>
      rw [List.map_cons, List.mapM_cons, ih]
      rfl

/-- The first of the fragments that are taken. -/
theorem get_zero_of_take {bucket : Fragments} {number : Nat} {fragments : List (List UInt8)}
    (taken : bucket.toList.take (number + 1) = fragments.map some) :
    (bucket.get ⟨0, by decide⟩).getD [] = fragments.headD [] := by
  have first : bucket.toList.head? = some (bucket.get ⟨0, by decide⟩) := by
    rw [List.head?_eq_getElem?, Vector.getElem?_toList]
    exact Vector.getElem?_eq_getElem (by decide)
  have same : (bucket.toList.take (number + 1)).head? = some (bucket.get ⟨0, by decide⟩) := by
    rw [List.head?_take, if_neg (Nat.succ_ne_zero number), first]
  rw [taken] at same
  cases fragments with
  | nil => cases same
  | cons fragment rest =>
      rw [← Option.some.inj same]
      rfl

theorem handleFragments_eq {bucket : Fragments} {number : Nat} {handler : Handler}
    {fragments : List (List UInt8)}
    (taken : bucket.toList.take (number + 1) = fragments.map some) :
    handleFragments handler bucket number = runHandler fragments number handler := by
  rw [handleFragments, taken, mapM_id_map_some]
  rfl

/-- A handler makes its copies within bounds on accepted fragments that it can merge. -/
theorem handleFragments_isSome {bucket : Fragments} {number : Nat} {handler : Handler}
    {fragments : List (List UInt8)} {final : List UInt8}
    (taken : bucket.toList.take (number + 1) = fragments.map some)
    (length : fragments.length = number + 1) (flagged : Flagged fragments final)
    (stored : ∀ fragment ∈ fragments, Headed fragment)
    (covered : Covered fragments final handler) :
    (handleFragments handler bucket number).isSome := by
  have bounded : fragments.length ≤ 64 := by
    have shorter := congrArg List.length taken
    rw [List.length_take, List.length_map, Vector.length_toList] at shorter
    omega
  have fragmented : Fragmented fragments final :=
    ⟨bounded, fun fragment member => (stored fragment member).1, flagged⟩
  obtain ⟨merged, run⟩ := fragmented.runHandler_isSome
    (fun fragment member => (stored fragment member).2) covered
  rw [show fragments.length - 1 = number by omega] at run
  rw [handleFragments_eq taken]
  exact Option.isSome_iff_exists.mpr ⟨merged, run⟩

/-! ## What a step leaves in the table -/

/-- All fragments in the buckets of the table have a property. -/
def Keeps (p : List UInt8 → Prop) (table : ComextHashtable) : Prop :=
  ∀ bucket ∈ table.buckets, ∀ fragment, some fragment ∈ bucket.fragments.toList → p fragment

section Kept

variable {hashcode : List UInt8 → Nat} {p : List UInt8 → Prop} {table after : ComextHashtable}

theorem some_notMem_noFragments (fragment : List UInt8) :
    some fragment ∉ noFragments.toList := by
  rw [noFragments, Vector.toList_replicate, List.mem_replicate]
  simp

/-- A slot of the table, or a blank one behind its end. -/
theorem Keeps.slot (keeps : Keeps p table) (position : Nat) (fragment : List UInt8)
    (stored : some fragment ∈ (table.slot (comextOps hashcode) position).fragments.toList) :
    p fragment := by
  by_cases inside : position < table.buckets.length
  · exact keeps _ (Table.slot_mem _ inside) fragment stored
  · rw [Table.slot, List.getD_eq_default _ _ (not_lt.mp inside)] at stored
    exact absurd stored (some_notMem_noFragments fragment)

theorem Keeps.delete (keeps : Keeps p table) (position : Nat) :
    Keeps p (comextDeleteElement hashcode table position).1 := by
  intro bucket member fragment stored
  have deleted : table.delete (comextOps hashcode) position =
      comextDeleteElement hashcode table position := rfl
  rcases (Table.delete_stems deleted).2 bucket member with rfl | old
  · exact absurd stored (some_notMem_noFragments fragment)
  · exact keeps bucket old fragment stored

theorem Keeps.cleaned {arrival : Arrival} {s : ComExt} (keeps : Keeps p s.response) :
    Keeps p (cleaned hashcode arrival s).response := by
  have rounds (positions : List Nat) (table : ComextHashtable) (keeps : Keeps p table) :
      Keeps p (positions.foldl (fun table i =>
        if Expired arrival.cleanTime (table.slot (comextOps hashcode) i) then
          (comextDeleteElement hashcode table i).1
        else table) table) := by
    induction positions generalizing table with
    | nil => exact keeps
    | cons i rest ih =>
        rw [List.foldl_cons]
        apply ih
        split
        · exact keeps.delete i
        · exact keeps
  unfold ComextBancs.cleaned
  split
  · exact rounds _ _ keeps
  · exact keeps

theorem Keeps.insert {bucket : ComextBucket} {result : Option Nat} (keeps : Keeps p table)
    (new : ∀ fragment, some fragment ∈ bucket.fragments.toList → p fragment)
    (inserted : comextInsertElement hashcode table bucket = some (after, result)) :
    Keeps p after := by
  intro other member fragment stored
  rcases (Table.insert_stems inserted).buckets other member with rfl | rfl | old
  · exact absurd stored (some_notMem_noFragments fragment)
  · exact new fragment stored
  · exact keeps other old fragment stored

theorem of_mem_addFragment {message fragment : List UInt8} (legible : Legible message)
    {fragments : Fragments} (accepted : p message)
    (kept : ∀ fragment, some fragment ∈ fragments.toList → p fragment)
    (stored : some fragment ∈ (addFragment message legible fragments).toList) : p fragment := by
  rw [addFragment, Vector.toList_set] at stored
  rcases List.mem_or_eq_of_mem_set stored with old | new
  · exact kept fragment old
  · cases new
    exact accepted

/-- The fragments that are stored for a reference id are in the table. -/
theorem Keeps.storedFragments {s : ComExt} (keeps : Keeps p s.response) (refid : List UInt8)
    (fragment : List UInt8)
    (stored : some fragment ∈ (ComextBancs.storedFragments hashcode s refid).toList) :
    p fragment := by
  unfold ComextBancs.storedFragments at stored
  split at stored
  · exact absurd stored (some_notMem_noFragments fragment)
  · split at stored
    · exact absurd stored (some_notMem_noFragments fragment)
    · rename_i bucket found
      unfold comextRetrieveElement Table.retrieve at found
      split at found
      · cases found
        exact keeps.slot _ fragment stored
      · cases found

theorem Keeps.deleteByRefid {refid : List UInt8} {result : Option Nat} (keeps : Keeps p table)
    (deleted : comextDeleteElementByRefid hashcode table refid = some (after, result)) :
    Keeps p after := by
  obtain ⟨position, -, deletedAt⟩ := Option.map_eq_some_iff.mp deleted
  have kept : Keeps p (comextDeleteElement hashcode table position).1 := keeps.delete position
  rw [deletedAt] at kept
  exact kept

theorem Keeps.set {bucket : ComextBucket} (keeps : Keeps p table) (position : Nat)
    (new : ∀ fragment, some fragment ∈ bucket.fragments.toList → p fragment) :
    Keeps p { table with buckets := table.buckets.set position bucket } := by
  intro other member fragment stored
  rcases List.mem_or_eq_of_mem_set member with old | rfl
  · exact keeps other old fragment stored
  · exact new fragment stored

theorem keeps_initComExt (time : Int) : Keeps p (initComExt hashcode time).response := by
  intro bucket member fragment stored
  cases List.eq_of_mem_replicate member
  exact absurd stored (some_notMem_noFragments fragment)

end Kept

/-! ## The calls of a step -/

section Calls

variable {hashcode : List UInt8 → Nat} {p : List UInt8 → Prop}
variable {run : Handler → Fragments → Nat → Int × Option (List UInt8)}

/-- A call of a handler on a complete set of fragments. -/
structure CallOn (fragments : Fragments) (call : Call) : Prop where
  handler : call.handler = chooseHandler (jydm ((fragments.get ⟨0, by decide⟩).getD []))
  fragments : call.fragments = fragments
  complete : checkFragments 0 call.fragments.toList = .complete call.number

theorem handleInputMessage_steps {response after : ComextHashtable} {bucket : ComextBucket}
    {reply : Reply} (keeps : Keeps p response)
    (handled : handleInputMessage hashcode run response bucket = some (after, reply)) :
    Keeps p after ∧ ∀ call ∈ reply.calls, CallOn bucket.fragments call := by
  unfold handleInputMessage at handled
  split at handled
  · cases handled
    exact ⟨keeps, List.forall_mem_nil _⟩
  · obtain ⟨deleted, deletedEq, result⟩ := Option.bind_eq_some_iff.mp handled
    cases result
    exact ⟨keeps.deleteByRefid deletedEq, List.forall_mem_nil _⟩
  · obtain ⟨deleted, deletedEq, result⟩ := Option.bind_eq_some_iff.mp handled
    cases result
    exact ⟨keeps.deleteByRefid deletedEq, List.forall_mem_nil _⟩
  · rename_i number complete
    obtain ⟨deleted, deletedEq, result⟩ := Option.bind_eq_some_iff.mp handled
    cases result
    exact ⟨keeps.deleteByRefid deletedEq, List.forall_mem_singleton.mpr ⟨rfl, rfl, complete⟩⟩

/-- An arrival keeps what the fragments of the table have in common with it, and its call of a
handler is on the fragments that it completes. -/
theorem inputMessageProcess_steps {arrival : Arrival} {s t : ComExt} {reply : Reply}
    (keeps : Keeps p s.response) (accepted : Legible arrival.message → p arrival.message)
    (processed : inputMessageProcess hashcode run arrival s = some (t, reply)) :
    Keeps p t.response ∧ ∃ legible : Legible arrival.message, ∀ call ∈ reply.calls,
      CallOn (addFragment arrival.message legible
        (storedFragments hashcode s (referenceID arrival.message))) call := by
  unfold inputMessageProcess at processed
  split at processed
  · rename_i legible
    obtain ⟨position, found, searched⟩ := Option.bind_eq_some_iff.mp processed
    have stored (entry : Option ComextBucket)
        (retrieved : comextRetrieveElement hashcode s.response position = entry) :
        storedFragments hashcode s (referenceID arrival.message) =
          (entry.map ComextBucket.fragments).getD noFragments := by
      rw [storedFragments, found]
      simp only [retrieved]
      cases entry <;> rfl
    have kept (fragment : List UInt8) (member : some fragment ∈
        (storedFragments hashcode s (referenceID arrival.message)).toList) : p fragment :=
      keeps.storedFragments (referenceID arrival.message) fragment member
    split at searched
    · rename_i absent
      rw [stored _ absent]
      obtain ⟨⟨response, place⟩, inserted, answered⟩ := Option.bind_eq_some_iff.mp searched
      have none_kept (fragment : List UInt8) (stored : some fragment ∈ noFragments.toList) :
          p fragment := absurd stored (some_notMem_noFragments fragment)
      have keepsAfter : Keeps p response :=
        keeps.cleaned.insert (fun _ => of_mem_addFragment legible (accepted legible) none_kept)
          inserted
      cases place with
      | none =>
          cases answered
          exact ⟨keepsAfter, legible, List.forall_mem_nil _⟩
      | some place =>
          obtain ⟨⟨after, answer⟩, handled, result⟩ := Option.bind_eq_some_iff.mp answered
          cases result
          obtain ⟨keepsLast, calls⟩ := handleInputMessage_steps keepsAfter handled
          exact ⟨keepsLast, legible, calls⟩
    · rename_i bucket present
      rw [stored _ present] at kept ⊢
      obtain ⟨⟨after, answer⟩, handled, result⟩ := Option.bind_eq_some_iff.mp searched
      cases result
      obtain ⟨keepsLast, calls⟩ := handleInputMessage_steps
        (keeps.set position fun _ => of_mem_addFragment legible (accepted legible) kept) handled
      exact ⟨keepsLast, legible, calls⟩
  · cases processed

end Calls

/-! ## Runs within bounds -/

section Runs

variable {hashcode : List UInt8 → Nat} {time : Int} {arrivals : List Arrival}

variable (hashcode time arrivals) in
/-- The server passes a message to `InputMessageProcess` in a state. -/
def Meets (arrival : Arrival) (s : ComExt) : Prop :=
  ∃ before after replies, arrivals = before ++ arrival :: after ∧
    processAll hashcode handle before (initComExt hashcode time) = some (s, replies)

variable (hashcode time arrivals) in
/-- All steps of the server are within bounds. -/
def RunSafe : Prop :=
  ∀ arrival s, Meets hashcode time arrivals arrival s → StepSafe hashcode arrival s

/-- What the server takes for one message has the length that it declares. -/
theorem Accepted.measured {message : List UInt8} (accepted : Accepted message) :
    Measured message := by
  obtain ⟨positive, lengthEq⟩ := accepted
  have long : ¬ message.length < 5 := by
    intro short
    rw [getMessageLength, if_pos short] at positive
    exact lt_irrefl 0 positive
  have digits : declaredLength message = some (atoi ((message.drop 1).take 4)) := by
    rw [declaredLength, read_eq (by decide) (by omega)]
    rfl
  simp only [getMessageLength, if_neg long] at positive lengthEq
  split at positive
  · omega
  · rename_i begins
    rw [if_neg begins] at lengthEq
    split at positive
    · rename_i inRange
      rw [if_pos inRange] at lengthEq
      rw [Measured, digits, ← lengthEq, add_sub_cancel_right]
    · omega

theorem Accepted.headed {message : List UInt8} (accepted : Accepted message)
    (legible : Legible message) : Headed message := ⟨accepted.measured, legible.1⟩

/-- A message that is contained is processed within bounds. -/
theorem Keeps.stepSafe {arrival : Arrival} {s : ComExt} (keeps : Keeps Headed s.response)
    (accepted : Accepted arrival.message) (contained : Contained hashcode arrival s) :
    StepSafe hashcode arrival s := by
  obtain ⟨headers, positive, bounded⟩ := contained.legible
  refine ⟨headers, ⟨by omega, by omega⟩, ?_⟩
  intro t reply processed call member
  obtain ⟨-, legible, calls⟩ := inputMessageProcess_steps keeps accepted.headed processed
  obtain ⟨handlerEq, fragmentsEq, complete⟩ := calls call member
  obtain ⟨-, fragments, final, taken, length, flagged⟩ := exists_fragments complete
  rw [Nat.sub_zero] at taken length
  apply handleFragments_isSome taken length flagged
  · intro fragment memberOf
    have inBucket : some fragment ∈ call.fragments.toList :=
      List.mem_of_mem_take (taken ▸ List.mem_map_of_mem memberOf)
    rw [fragmentsEq] at inBucket
    exact of_mem_addFragment legible (accepted.headed legible)
      (keeps.storedFragments (referenceID arrival.message)) inBucket
  · rw [handlerEq, ← fragmentsEq, get_zero_of_take taken]
    rw [fragmentsEq] at complete taken
    exact contained.covered _ _ _ complete taken flagged.last

/-- The fragments of a bucket that begins with a message of a single fragment. -/
theorem checkFragments_single {message : List UInt8} (legible : Legible message)
    (first : sequence message = 1) (ends : Ends message) (fragments : Fragments) :
    (addFragment message legible fragments).toList.take 1 = [some message] ∧
      checkFragments 0 (addFragment message legible fragments).toList = .complete 0 := by
  have size : fragments.toList.length = 64 := Vector.length_toList
  rw [addFragment, Vector.toList_set, first]
  cases entries : fragments.toList with
  | nil => simp [entries] at size
  | cons entry rest => exact ⟨rfl, if_pos ends⟩

/-- What is collected for a reference id is what is stored for it. -/
theorem storedFragments_of_collected {s : ComExt} {refid : List UInt8} {fragments : Fragments}
    (inv : s.response.Inv (comextOps hashcode))
    (collected : Collected hashcode s.response refid fragments) :
    storedFragments hashcode s refid = fragments := by
  cases collected with
  | absent absent =>
      obtain ⟨position, -, found, dead⟩ := inv.find_absent absent
      simp [storedFragments, comextFindElement, found, comextRetrieveElement, Table.retrieve, dead]
  | @found bucket holds =>
      obtain ⟨position, -, found, rfl⟩ := inv.find_holds holds
      have live := holds.2.1
      simp [storedFragments, comextFindElement, found, comextRetrieveElement, Table.retrieve, live]

/-- A fragment of a message is contained when the handler of the message can merge it. -/
theorem contained_of_isMessage {refid : List UInt8} {fragments arrived : List (List UInt8)}
    (isMessage : IsMessage refid fragments) {arrival : Arrival} {s : ComExt}
    (member : arrival.message ∈ fragments) (legible : Legible arrival.message)
    (stored : storedFragments hashcode s (referenceID arrival.message) =
      arrivedFragments fragments arrived)
    (covered : ∀ final ∈ fragments.getLast?,
      Covered fragments final (chooseHandler (jydm (fragments.headD [])))) :
    Contained hashcode arrival s := by
  refine ⟨legible, fun number collected final complete taken last => ?_⟩
  rw [stored, addFragment_arrived isMessage member, arrivedFragments_toList isMessage.bounded]
    at complete taken
  by_cases all : ∀ fragment ∈ fragments, fragment ∈ arrival.message :: arrived
  · have listed : (fragments.map fun fragment =>
        if fragment ∈ arrival.message :: arrived then some fragment else none) =
          fragments.map some :=
        List.map_congr_left fun fragment inside => if_pos (all fragment inside)
    rw [listed] at complete taken
    rw [checkFragments_complete isMessage.nonempty isMessage.continues isMessage.ends] at complete
    cases complete
    have positive := List.length_pos_iff.mpr isMessage.nonempty
    rw [List.take_left' (by rw [List.length_map]; omega)] at taken
    obtain rfl := List.map_injective_iff.mpr (Option.some_injective _) taken
    exact covered final last
  · push Not at all
    obtain ⟨missing, inside, outstanding⟩ := all
    rw [checkFragments_missing isMessage.continues inside outstanding] at complete
    cases complete

/-- In every run the table keeps messages with their header fields. -/
theorem keeps_of_processAll {before : List Arrival} {s t : ComExt} {replies : List Reply}
    (keeps : Keeps Headed s.response)
    (accepted : ∀ arrival ∈ before, Accepted arrival.message)
    (processed : processAll hashcode handle before s = some (t, replies)) :
    Keeps Headed t.response := by
  induction before generalizing s replies with
  | nil =>
      cases processed
      exact keeps
  | cons arrival before ih =>
      simp only [processAll, Option.bind_eq_bind, Option.bind_eq_some_iff] at processed
      obtain ⟨first, processedFirst, rest, processedRest, result⟩ := processed
      cases result
      have acceptedFirst := accepted arrival List.mem_cons_self
      apply ih _ _ processedRest
      · exact (inputMessageProcess_steps keeps acceptedFirst.headed processedFirst).1
      · exact fun later member => accepted later (List.mem_cons_of_mem _ member)

/-- Reassembly stays within its memory as long as every message is contained in the state in
which it arrives. -/
theorem runSafe_of_contained (accepted : ∀ arrival ∈ arrivals, Accepted arrival.message)
    (contained : ∀ arrival s, Meets hashcode time arrivals arrival s →
      Contained hashcode arrival s) :
    RunSafe hashcode time arrivals := by
  intro arrival s meets
  have containedHere := contained arrival s meets
  obtain ⟨before, after, replies, rfl, processed⟩ := meets
  have keeps := keeps_of_processAll (keeps_initComExt time)
    (fun earlier member => accepted earlier (List.mem_append_left _ member)) processed
  exact keeps.stepSafe (accepted arrival (by simp)) containedHere

end Runs

/-- The handler of the samples can merge them. -/
theorem covered_samples : Covered [sampleFirst, sampleSecond] sampleSecond
    (chooseHandler (jydm sampleFirst)) := by
  have handler : chooseHandler (jydm sampleFirst) = .iHandleNoOutputcode := by
    have digits : jydm sampleFirst = literal "000000" := rfl
    rw [digits]
    decide
  have codes : ∀ fragment ∈ [sampleFirst, sampleSecond],
      129 ≤ fragment.length ∧ codeOf fragment = literal "01" := by
    intro fragment member
    rcases List.mem_pair.mp member with rfl | rfl
    · decide +kernel
    · decide +kernel
  rw [handler]
  refine Or.inr ⟨fun fragment member => (codes fragment member).1, ?_⟩
  intro done fragment rest whole printed
  have member : fragment ∈ [sampleFirst, sampleSecond] := by rw [whole]; simp
  rw [(codes fragment member).2] at printed
  exact absurd printed (by decide)

/-- Two fragments of a message, the second one first. -/
theorem runSafe_of_contained_reversed :
    RunSafe sampleHashcode 0 [⟨sampleSecond, 0, 0⟩, ⟨sampleFirst, 0, 0⟩] := by
  have isMessage := isMessage_sampleId
  have created := Table.create_inv (comextOps sampleHashcode) 500 ()
  have nothing : Collected sampleHashcode (initComExt sampleHashcode 0).response sampleId
      (arrivedFragments [sampleFirst, sampleSecond] []) := by
    rw [arrivedFragments_nil]
    exact .absent (created.2 sampleId)
  have contained {arrival : Arrival} {s : ComExt} {arrived : List (List UInt8)}
      (member : arrival.message ∈ [sampleFirst, sampleSecond]) (legible : Legible arrival.message)
      (inv : s.response.Inv (comextOps sampleHashcode))
      (collected : Collected sampleHashcode s.response sampleId
        (arrivedFragments [sampleFirst, sampleSecond] arrived)) :
      Contained sampleHashcode arrival s := by
    refine @contained_of_isMessage sampleHashcode sampleId _ arrived isMessage arrival s member
      legible ?_ ?_
    · rw [isMessage.refid _ member]
      exact storedFragments_of_collected inv collected
    · rintro _ ⟨⟩
      exact covered_samples
  apply runSafe_of_contained
  · intro arrival member
    rcases List.mem_pair.mp member with rfl | rfl
    · decide +kernel
    · decide +kernel
  · intro arrival s ⟨before, after, replies, whole, processed⟩
    match before with
    | [] =>
        cases whole
        cases processed
        exact contained (by simp) legible_samples.2 created.1 nothing
    | [first] =>
        cases whole
        have admissible : Admissible sampleHashcode ⟨sampleSecond, 0, 0⟩
            (initComExt sampleHashcode 0) :=
          ⟨legible_samples.2, fun _ => by decide, fun due => by simp [initComExt] at due⟩
        have refid := isMessage.refid sampleSecond (by simp)
        rw [← refid] at nothing
        obtain ⟨next, processedEq, stored, -⟩ :=
          inputMessageProcess_spec handle created.1 admissible nothing
        rw [addFragment_arrived isMessage (by simp), refid] at stored
        cases processed.symm.trans (processAll_cons processedEq rfl)
        exact contained List.mem_cons_self legible_samples.1 stored.inv
          (stored.kept second_alone.1)
    | _ :: _ :: _ =>
        have sizes := congrArg List.length whole
        simp at sizes

/-- A fragment of `010450` that has only its header fields. -/
def bareFragment : List UInt8 :=
  literal "A0122" ++ List.replicate 24 48 ++ literal "0001" ++ List.replicate 24 48 ++
    literal "010450" ++ List.replicate 20 48 ++ [50] ++ List.replicate 11 48 ++
    List.replicate 32 65

/-- A sequence number of 0 leads outside of the array, and a fragment without an output code
makes its handler read behind the end of it. -/
theorem not_runSafe :
    (Accepted (sampleFragment 48 50 (List.replicate 32 65) (literal "01ab")) ∧
      ¬ RunSafe sampleHashcode 0
        [⟨sampleFragment 48 50 (List.replicate 32 65) (literal "01ab"), 0, 0⟩]) ∧
    (Accepted bareFragment ∧ Legible bareFragment ∧
      ¬ RunSafe sampleHashcode 0 [⟨bareFragment, 0, 0⟩]) := by
  have meets (arrival : Arrival) : Meets sampleHashcode 0 [arrival] arrival
      (initComExt sampleHashcode 0) := ⟨[], [], [], rfl, rfl⟩
  refine ⟨⟨by decide +kernel, ?_⟩, by decide +kernel, by decide +kernel, ?_⟩
  · intro safe
    obtain ⟨-, ⟨positive, -⟩, -⟩ := safe _ _ (meets _)
    exact absurd positive (by decide)
  · intro safe
    have legible : Legible bareFragment := by decide +kernel
    have created := Table.create_inv (comextOps sampleHashcode) 500 ()
    have admissible : Admissible sampleHashcode ⟨bareFragment, 0, 0⟩
        (initComExt sampleHashcode 0) :=
      ⟨legible, fun _ => by decide, fun due => by simp [initComExt] at due⟩
    obtain ⟨after, processed, -⟩ :=
      inputMessageProcess_spec handle created.1 admissible (.absent (created.2 _))
    obtain ⟨taken, complete⟩ := checkFragments_single legible rfl (Or.inl rfl) noFragments
    have single : (addFragment bareFragment legible noFragments).toList.take (0 + 1) =
        [bareFragment].map some := taken
    have copies := (safe _ _ (meets ⟨bareFragment, 0, 0⟩)).copies after _ processed
    rw [replyTo, complete] at copies
    have copied := copies _ List.mem_cons_self
    have outside : handleFragments .handle010450
        (addFragment bareFragment legible noFragments) 0 = none := by
      have code : outputcode bareFragment = none := by decide +kernel
      have merging : runHandler [bareFragment] 0 .handle010450 = none := by
        simp [runHandler, handle010450, handleRecords, code]
      rw [handleFragments_eq single, merging]
    have named : chooseHandler (jydm bareFragment) = .handle010450 := by decide +kernel
    change (handleFragments (chooseHandler (jydm
      (((addFragment bareFragment legible noFragments).get ⟨0, by decide⟩).getD [])))
      (addFragment bareFragment legible noFragments) 0).isSome at copied
    rw [get_zero_of_take single, List.headD_cons, named, outside] at copied
    cases copied

end FrameCode.ComextBancs
