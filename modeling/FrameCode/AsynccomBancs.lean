import FrameCode.AsynccomTransactions
import FrameCode.ComextFragments

/-!
# Messages in fragments over several lines

`asynccom-server.c` linked with `comext-bancs.c`: the server cuts the streams of its
connections into messages, `HandleTransaction` passes each to `InputMessageProcess`,
and this collects the fragments of one message no matter over which lines, in which
order and cut into which reads they come.
-/

namespace FrameCode.AsynccomBancs

open OpenAddressing Comext ComextBancs AsynccomServer

variable (hashcode : List UInt8 → Nat)
variable (handle : Handler → Fragments → Nat → Int × Option (List UInt8))

/-! ## The program -/

/-- The state that the transactions work on.  It is lost once a fragment has led
outside of an array.  The lists record the arrivals and the replies to them. -/
structure World where
  comExt : Option ComExt
  arrived : List Arrival
  replies : List Reply

def initWorld (time : Int) : World := ⟨some (initComExt hashcode time), [], []⟩

/-- `HandleTransaction`: what becomes of a complete message further on does not change
the result.  The clock gives the two times that the module reads for each arrival. -/
def handleTransaction (clock : Nat → Int × Int) (world : World) (message : List UInt8) :
    World × Int :=
  let times := clock world.arrived.length
  let arrival : Arrival := ⟨message, times.1, times.2⟩
  let arrived := world.arrived ++ [arrival]
  match world.comExt.bind (inputMessageProcess hashcode handle arrival) with
  | none => ({ world with comExt := none, arrived := arrived }, 0)
  | some (comExt, reply) =>
      (⟨some comExt, arrived, world.replies ++ [reply]⟩,
        if 0 < reply.length then 0 else if reply.length = -1 then -1 else 0)

/-- The calls of handlers in answer to the fragments of a reference id. -/
def World.callsFor (world : World) (refid : List UInt8) : List Call :=
  ((world.arrived.zip world.replies).filter fun entry =>
    referenceID entry.1.message = refid).flatMap fun entry => entry.2.calls

/-! ## The arrivals -/

section Arrivals

variable {hashcode handle}

theorem handleTransaction_of_processed {clock : Nat → Int × Int} {world : World}
    {message : List UInt8} {before after : ComExt} {reply : Reply}
    (found : world.comExt = some before)
    (processed : inputMessageProcess hashcode handle ⟨message, (clock world.arrived.length).1,
      (clock world.arrived.length).2⟩ before = some (after, reply)) :
    handleTransaction hashcode handle clock world message =
      (⟨some after, world.arrived ++ [⟨message, (clock world.arrived.length).1,
          (clock world.arrived.length).2⟩], world.replies ++ [reply]⟩,
        if 0 < reply.length then 0 else if reply.length = -1 then -1 else 0) := by
  simp [handleTransaction, found, processed]

theorem processAll_concat (arrivals : List Arrival) (arrival : Arrival) (s : ComExt) :
    processAll hashcode handle (arrivals ++ [arrival]) s =
      (processAll hashcode handle arrivals s).bind fun before =>
        (inputMessageProcess hashcode handle arrival before.1).map fun result =>
          (result.1, before.2 ++ [result.2]) := by
  induction arrivals generalizing s with
  | nil =>
      simp only [List.nil_append, processAll, Option.bind_eq_bind, Option.bind_some]
      cases inputMessageProcess hashcode handle arrival s <;> rfl
  | cons first arrivals ih =>
      simp only [List.cons_append, processAll, Option.bind_eq_bind, Option.bind_assoc, ih]
      refine Option.bind_congr fun result _ => ?_
      cases processAll hashcode handle arrivals result.1 with
      | none => rfl
      | some rest =>
          simp only [Option.bind_some]
          cases inputMessageProcess hashcode handle arrival rest.1 <;> rfl

/-- The last entry of a list with a property. -/
theorem exists_last {α : Type} {entries : List α} {holds : α → Prop}
    (present : ∃ entry ∈ entries, holds entry) :
    ∃ before last later, entries = before ++ last :: later ∧ holds last ∧
      ∀ entry ∈ later, ¬ holds entry := by
  induction entries using List.reverseRecOn with
  | nil =>
      obtain ⟨entry, member, -⟩ := present
      cases member
  | append_singleton entries last ih =>
      by_cases here : holds last
      · exact ⟨entries, last, [], rfl, here, nofun⟩
      · obtain ⟨entry, member, property⟩ := present
        have earlier : entry ∈ entries := by
          rcases List.mem_append.mp member with earlier | same
          · exact earlier
          · rw [List.mem_singleton.mp same] at property
            exact absurd property here
        obtain ⟨before, found, later, rfl, foundHere, others⟩ := ih ⟨entry, earlier, property⟩
        refine ⟨before, found, later ++ [last], by simp, foundHere, fun entry member => ?_⟩
        rcases List.mem_append.mp member with inside | same
        · exact others entry inside
        · rwa [List.mem_singleton.mp same]

/-- The world holds what the module makes of the messages in their order. -/
theorem transact_recorded (clock : Nat → Int × Int) (time : Int) (order : List (List UInt8)) :
    (transact (handleTransaction hashcode handle clock) (initWorld hashcode time) order).arrived =
      order.mapIdx (fun index message => ⟨message, (clock index).1, (clock index).2⟩) ∧
    processAll hashcode handle
        (transact (handleTransaction hashcode handle clock) (initWorld hashcode time) order).arrived
        (initComExt hashcode time) =
      (transact (handleTransaction hashcode handle clock) (initWorld hashcode time)
        order).comExt.map fun comExt => (comExt,
          (transact (handleTransaction hashcode handle clock) (initWorld hashcode time)
            order).replies) := by
  induction order using List.reverseRecOn with
  | nil => exact ⟨rfl, rfl⟩
  | append_singleton order message ih =>
      rw [transact_append]
      generalize transact (handleTransaction hashcode handle clock) (initWorld hashcode time)
        order = world at ih
      obtain ⟨arrived, processed⟩ := ih
      have size : world.arrived.length = order.length := by rw [arrived, List.length_mapIdx]
      have grown : (order ++ [message]).mapIdx (fun index message =>
          (⟨message, (clock index).1, (clock index).2⟩ : Arrival)) = world.arrived ++
            [⟨message, (clock world.arrived.length).1, (clock world.arrived.length).2⟩] := by
        rw [List.mapIdx_concat, ← arrived, size]
      rw [grown]
      simp only [transact, List.foldl_cons, List.foldl_nil, handleTransaction]
      cases comExt : world.comExt with
      | none =>
          simp [comExt] at processed
          simp [processAll_concat, processed]
      | some before =>
          simp only [comExt, Option.map_some] at processed
          cases result : inputMessageProcess hashcode handle
              ⟨message, (clock world.arrived.length).1, (clock world.arrived.length).2⟩ before with
          | none => simp [processAll_concat, processed, result]
          | some after => simp [processAll_concat, processed, result]

theorem map_message_mapIdx (clock : Nat → Int × Int) (order : List (List UInt8)) :
    (order.mapIdx fun index message =>
      (⟨message, (clock index).1, (clock index).2⟩ : Arrival)).map Arrival.message = order := by
  apply List.ext_getElem <;> simp

/-- Admissible arrivals are all processed, and they leave the fragments of every other
reference id alone. -/
theorem processAll_total {arrivals : List Arrival} {s : ComExt}
    (inv : s.response.Inv (comextOps hashcode))
    (admissible : AdmissibleAll hashcode handle arrivals s) :
    ∃ last replies, processAll hashcode handle arrivals s = some (last, replies) ∧
      ∀ refid, (∀ arrival ∈ arrivals, referenceID arrival.message ≠ refid) →
        ∀ bucket, last.response.Holds (comextOps hashcode) refid bucket ↔
          s.response.Holds (comextOps hashcode) refid bucket := by
  induction arrivals generalizing s with
  | nil => exact ⟨s, [], rfl, fun _ _ _ => Iff.rfl⟩
  | cons arrival arrivals ih =>
      obtain ⟨first, later⟩ := admissible
      obtain ⟨fragments, collected⟩ :=
        exists_collected hashcode s.response (referenceID arrival.message)
      obtain ⟨after, processed, stored, -⟩ := inputMessageProcess_spec handle inv first collected
      obtain ⟨last, replies, processedLater, same⟩ := ih stored.inv (later _ _ processed)
      refine ⟨last, _, processAll_cons processed processedLater, fun refid others bucket => ?_⟩
      have different := (others arrival List.mem_cons_self).symm
      have unchanged := same refid fun other member => others other (List.mem_cons_of_mem _ member)
      exact (unchanged bucket).trans (stored.others refid different bucket)

theorem length_processAll {arrivals : List Arrival} {s last : ComExt} {replies : List Reply}
    (processed : processAll hashcode handle arrivals s = some (last, replies)) :
    replies.length = arrivals.length := by
  induction arrivals generalizing s replies with
  | nil =>
      cases processed
      rfl
  | cons arrival arrivals ih =>
      simp only [processAll, Option.bind_eq_bind, Option.bind_eq_some_iff] at processed
      obtain ⟨first, -, rest, processedRest, result⟩ := processed
      cases result
      rw [List.length_cons, List.length_cons, ih processedRest]

theorem reachable_of_processAll {arrivals : List Arrival} {s last : ComExt}
    {replies : List Reply} (reachable : ComextBancs.Reachable hashcode handle s)
    (admissible : AdmissibleAll hashcode handle arrivals s)
    (processed : processAll hashcode handle arrivals s = some (last, replies)) :
    ComextBancs.Reachable hashcode handle last := by
  induction arrivals generalizing s replies with
  | nil =>
      cases processed
      exact reachable
  | cons arrival arrivals ih =>
      simp only [processAll, Option.bind_eq_bind, Option.bind_eq_some_iff] at processed
      obtain ⟨first, processedFirst, rest, processedRest, result⟩ := processed
      cases result
      exact ih (.arrive reachable admissible.1 processedFirst)
        (admissible.2 _ _ processedFirst) processedRest

theorem calls_unanswered {refid : List UInt8} {arrivals : List Arrival} {replies : List Reply}
    (answered : List.Forall₂ (fun arrival reply => referenceID arrival.message = refid →
      reply.length = 0 ∧ reply.calls = []) arrivals replies) :
    ((arrivals.zip replies).filter fun entry =>
      referenceID entry.1.message = refid).flatMap (fun entry => entry.2.calls) = [] := by
  induction answered with
  | nil => rfl
  | @cons arrival reply arrivals replies first later ih =>
      by_cases mine : referenceID arrival.message = refid
      · rw [List.zip_cons_cons, List.filter_cons_of_pos (by simpa using mine), List.flatMap_cons,
          (first mine).2, List.nil_append, ih]
      · rw [List.zip_cons_cons, List.filter_cons_of_neg (by simpa using mine), ih]

/-- Arrivals of which the fragments with one reference id make up a message. -/
theorem processAll_message {refid : List UInt8} {fragments : List (List UInt8)}
    (isMessage : IsMessage refid fragments) {arrivals : List Arrival} {time : Int}
    (admissible : AdmissibleAll hashcode handle arrivals (initComExt hashcode time))
    (mine : ((arrivals.filter fun arrival =>
      referenceID arrival.message = refid).map Arrival.message).Perm fragments) :
    ∃ last replies,
      processAll hashcode handle arrivals (initComExt hashcode time) = some (last, replies) ∧
      ((arrivals.zip replies).filter fun entry =>
          referenceID entry.1.message = refid).flatMap (fun entry => entry.2.calls) =
        [⟨chooseHandler (jydm (fragments.headD [])), Vector.ofFn fun k => fragments[k.val]?,
          fragments.length - 1⟩] ∧
      ∀ bucket, ¬ last.response.Holds (comextOps hashcode) refid bucket := by
  have present : ∃ arrival ∈ arrivals, referenceID arrival.message = refid := by
    obtain ⟨fragment, member⟩ := List.exists_mem_of_ne_nil _ isMessage.nonempty
    obtain ⟨arrival, filtered, -⟩ := List.mem_map.mp (mine.mem_iff.mpr member)
    obtain ⟨below, same⟩ := List.mem_filter.mp filtered
    exact ⟨arrival, below, of_decide_eq_true same⟩
  obtain ⟨before, final, later, rfl, finalMine, others⟩ := exists_last present
  have none_later : later.filter (fun arrival => referenceID arrival.message = refid) = [] := by
    simpa [List.filter_eq_nil_iff] using others
  rw [List.append_cons, List.filter_append, none_later, List.append_nil] at mine
  rw [List.append_cons] at admissible
  obtain ⟨created, absent⟩ := Table.create_inv (comextOps hashcode) 500 ()
  obtain ⟨middle, replies, after, reply, processed, answered, processedFinal, called, removed, -⟩ :=
    reassembled_of_arrivals created (absent refid) isMessage mine finalMine admissible.take
  have processedBoth : processAll hashcode handle (before ++ [final]) (initComExt hashcode time) =
      some (after, replies ++ [reply]) := by
    rw [processAll_concat, processed, Option.bind_some, processedFinal, Option.map_some]
  have reachable : ComextBancs.Reachable hashcode handle after :=
    reachable_of_processAll (.start time) admissible.take processedBoth
  obtain ⟨last, laterReplies, processedLater, same⟩ :=
    processAll_total reachable.inv (admissible.drop processedBoth)
  refine ⟨last, replies ++ reply :: laterReplies, ?_, ?_, ?_⟩
  · have whole := processAll_append processedBoth processedLater
    rwa [← List.append_cons, ← List.append_cons] at whole
  · have noneLater : (later.zip laterReplies).filter (fun entry =>
        referenceID entry.1.message = refid) = [] := by
      rw [List.filter_eq_nil_iff]
      intro entry member
      simpa using others entry.1 (List.of_mem_zip member).1
    rw [List.zip_append (length_processAll processed).symm, List.filter_append,
      List.flatMap_append, calls_unanswered answered, List.zip_cons_cons,
      List.filter_cons_of_pos (by simpa using finalMine), noneLater]
    simp [called]
  · intro bucket holds
    exact removed bucket ((same refid others bucket).mp holds)

end Arrivals

/-! ## What handlers see -/

section Unmixed

variable {hashcode handle}

/-- Every bucket holds only fragments of its reference id that have arrived. -/
def Unmixed (hashcode : List UInt8 → Nat) (table : ComextHashtable)
    (arrived : List (List UInt8)) : Prop :=
  ∀ refid bucket, table.Holds (comextOps hashcode) refid bucket →
    ∀ fragment, some fragment ∈ bucket.fragments.toList →
      referenceID fragment = refid ∧ fragment ∈ arrived

/-- The fragments of a call are those of the reference id it answers. -/
def Faithful (arrived : List (List UInt8)) (arrival : Arrival) (reply : Reply) : Prop :=
  ∀ call ∈ reply.calls, ∀ fragment, some fragment ∈ call.fragments.toList →
    referenceID fragment = referenceID arrival.message ∧ fragment ∈ arrived

theorem fragments_eq_of_holds {table : ComextHashtable} (inv : table.Inv (comextOps hashcode))
    {refid : List UInt8} {fragments : Fragments}
    (collected : Collected hashcode table refid fragments) {bucket : ComextBucket}
    (holds : table.Holds (comextOps hashcode) refid bucket) : bucket.fragments = fragments := by
  cases collected with
  | absent absent => exact absurd holds (absent bucket)
  | found other =>
      obtain ⟨first, -, found, rfl⟩ := inv.find_holds holds
      obtain ⟨second, -, foundOther, rfl⟩ := inv.find_holds other
      obtain rfl : first = second := by simpa [found] using foundOther
      rfl

theorem Unmixed.inputMessageProcess {arrival : Arrival} {s after : ComExt} {reply : Reply}
    {arrived : List (List UInt8)} (unmixed : Unmixed hashcode s.response arrived)
    (inv : s.response.Inv (comextOps hashcode)) (admissible : Admissible hashcode arrival s)
    (processed : ComextBancs.inputMessageProcess hashcode handle arrival s =
      some (after, reply)) :
    Unmixed hashcode after.response (arrival.message :: arrived) ∧
      Faithful (arrival.message :: arrived) arrival reply := by
  obtain ⟨fragments, collected⟩ :=
    exists_collected hashcode s.response (referenceID arrival.message)
  obtain ⟨found, processedEq, stored, -⟩ := inputMessageProcess_spec handle inv admissible collected
  cases processed.symm.trans processedEq
  have earlier {fragment : List UInt8} (member : some fragment ∈ fragments.toList) :
      referenceID fragment = referenceID arrival.message ∧ fragment ∈ arrived := by
    cases collected with
    | absent absent => simp [noFragments] at member
    | found holds => exact unmixed _ _ holds fragment member
  have added {fragment : List UInt8} (member : some fragment ∈
      (addFragment arrival.message admissible.legible fragments).toList) :
      referenceID fragment = referenceID arrival.message ∧
        fragment ∈ arrival.message :: arrived := by
    rw [addFragment, Vector.toList_set] at member
    rcases List.mem_or_eq_of_mem_set member with old | new
    · exact (earlier old).imp_right (List.mem_cons_of_mem _)
    · cases new
      exact ⟨rfl, List.mem_cons_self⟩
  constructor
  · intro refid bucket holds fragment member
    by_cases mine : refid = referenceID arrival.message
    · subst mine
      by_cases missing : checkFragments 0
          (addFragment arrival.message admissible.legible fragments).toList = .missing
      · rw [fragments_eq_of_holds stored.inv (stored.kept missing) holds] at member
        exact added member
      · exact absurd holds (stored.removed missing bucket)
    · have before := (stored.others refid mine bucket).mp holds
      exact (unmixed refid bucket before fragment member).imp_right (List.mem_cons_of_mem _)
  · intro call made fragment member
    unfold replyTo at made
    split at made
    · cases made
    · cases made
    · cases made
    · cases List.mem_singleton.mp made
      exact added member

theorem processAll_unmixed {arrivals : List Arrival} {s last : ComExt} {replies : List Reply}
    {arrived : List (List UInt8)} (unmixed : Unmixed hashcode s.response arrived)
    (reachable : ComextBancs.Reachable hashcode handle s)
    (admissible : AdmissibleAll hashcode handle arrivals s)
    (processed : processAll hashcode handle arrivals s = some (last, replies)) :
    ∀ entry ∈ arrivals.zip replies,
      Faithful (arrived ++ arrivals.map Arrival.message) entry.1 entry.2 := by
  induction arrivals generalizing s replies arrived with
  | nil => simp
  | cons arrival arrivals ih =>
      simp only [processAll, Option.bind_eq_bind, Option.bind_eq_some_iff] at processed
      obtain ⟨first, processedFirst, rest, processedRest, result⟩ := processed
      cases result
      obtain ⟨later, faithful⟩ :=
        unmixed.inputMessageProcess reachable.inv admissible.1 processedFirst
      have reachableFirst : ComextBancs.Reachable hashcode handle first.1 :=
        .arrive reachable admissible.1 processedFirst
      intro entry member
      rw [List.zip_cons_cons, List.mem_cons] at member
      rcases member with rfl | member
      · intro call made fragment inside
        refine (faithful call made fragment inside).imp_right fun known => ?_
        simp only [List.map_cons, List.mem_append, List.mem_cons] at known ⊢
        tauto
      · intro call made fragment inside
        have known := ih later reachableFirst (admissible.2 _ _ processedFirst) processedRest entry
          member call made fragment inside
        refine known.imp_right fun known => ?_
        simp only [List.map_cons, List.mem_append, List.mem_cons] at known ⊢
        tauto

end Unmixed

/-! ## A run -/

section Sample

/-- The reference id of a message of one fragment. -/
def otherId : List UInt8 := List.replicate 32 66

def sampleOther : List UInt8 := sampleFragment 49 50 otherId (CText.literal "01xy")

/-- The other message comes between the fragments, of which the second one comes first. -/
def sampleArrivals : List Arrival :=
  [⟨sampleSecond, 0, 0⟩, ⟨sampleOther, 0, 0⟩, ⟨sampleFirst, 0, 0⟩]

theorem nonzero_otherId : ∀ c ∈ otherId, c ≠ 0 := by
  intro c member
  rw [List.eq_of_mem_replicate member]
  decide

theorem isMessage_sampleOther : IsMessage otherId [sampleOther] :=
  isMessage_single rfl nonzero_otherId _

theorem legible_sampleOther : Legible sampleOther := legible_sample rfl (by decide) (by decide)

/-- A fragment of 131 bytes is a message of the stream. -/
theorem messages_sampleFragment {digit flag : UInt8} {uuid body : List UInt8}
    (size : uuid.length + body.length = 36) :
    (sampleFragment digit flag uuid body).length = 131 ∧
      StreamFraming.messages bancsMessageLength (sampleFragment digit flag uuid body) =
        [sampleFragment digit flag uuid body] := by
  have header : (sampleFragment digit flag uuid body).head? = some 65 ∧
      ((sampleFragment digit flag uuid body).drop 1).take 4 = CText.literal "0126" := ⟨rfl, rfl⟩
  have length : (sampleFragment digit flag uuid body).length = 131 := by
    have length_eq : (sampleFragment digit flag uuid body).length = 95 + (uuid ++ body).length := by
      simp only [sampleFragment, List.length_append]
      rfl
    rw [length_eq, List.length_append, size]
  generalize sampleFragment digit flag uuid body = message at header length
  have value : bancsMessageLength message = 131 := by
    rw [bancsMessageLength, length, header.1, header.2]
    decide
  have complete : StreamFraming.Complete bancsMessageLength message := by
    refine ⟨by omega, ?_⟩
    rw [value, length]
    rfl
  have drop : message.drop (131 : Int).toNat = [] := List.drop_of_length_le length.le
  have take : message.take (131 : Int).toNat = message := List.take_of_length_le length.le
  rw [StreamFraming.messages_of_complete complete, value, drop, take,
    StreamFraming.messages_of_not_complete not_complete_nil]
  exact ⟨length, rfl⟩

theorem length_replyTo_sample {fragments : Fragments}
    (called : (replyTo sampleHandle fragments).calls ≠ []) :
    0 ≤ (replyTo sampleHandle fragments).length := by
  cases progress : checkFragments 0 fragments.toList with
  | missing | badFlag | tooMany => simp [replyTo, progress] at called
  | complete number =>
      simp only [replyTo, progress, sampleHandle]
      exact Int.natCast_nonneg _

/-- Fragments of a message are never refused. -/
theorem length_replyTo_arrived {refid : List UInt8} {fragments : List (List UInt8)}
    (isMessage : IsMessage refid fragments) (arrived : List (List UInt8)) :
    0 ≤ (replyTo sampleHandle (arrivedFragments fragments arrived)).length := by
  by_cases all : ∀ fragment ∈ fragments, fragment ∈ arrived
  · apply length_replyTo_sample
    rw [(replyTo_complete sampleHandle isMessage all).2]
    exact List.cons_ne_nil _ _
  · push Not at all
    obtain ⟨last, member, outstanding⟩ := all
    have missing : checkFragments 0 (arrivedFragments fragments arrived).toList = .missing := by
      rw [arrivedFragments_toList isMessage.bounded]
      exact checkFragments_missing isMessage.continues member outstanding 0 _
    simp [replyTo, missing]

/-- The transaction of such a fragment succeeds. -/
theorem handleTransaction_sample {refid : List UInt8} {fragments arrived : List (List UInt8)}
    (isMessage : IsMessage refid fragments) {world : World} {s : ComExt}
    (found : world.comExt = some s) (inv : s.response.Inv (comextOps sampleHashcode))
    {message : List UInt8} (member : message ∈ fragments)
    (admissible : Admissible sampleHashcode ⟨message, 0, 0⟩ s)
    (collected : Collected sampleHashcode s.response refid (arrivedFragments fragments arrived))
    (unclean : s.lastCleanTime = 0) :
    ∃ after reply, inputMessageProcess sampleHashcode sampleHandle ⟨message, 0, 0⟩ s =
        some (after, reply) ∧
      handleTransaction sampleHashcode sampleHandle (fun _ => (0, 0)) world message =
        (⟨some after, world.arrived ++ [⟨message, 0, 0⟩], world.replies ++ [reply]⟩, 0) ∧
      Stored sampleHashcode s.response after.response refid
        (arrivedFragments fragments (message :: arrived)) ∧ after.lastCleanTime = 0 := by
  rw [← isMessage.refid message member] at collected
  obtain ⟨after, processed, stored, clock⟩ :=
    inputMessageProcess_spec sampleHandle inv admissible collected
  rw [addFragment_arrived isMessage member] at processed stored
  have answered := length_replyTo_arrived isMessage (message :: arrived)
  have notFailed : ¬ (replyTo sampleHandle
      (arrivedFragments fragments (message :: arrived))).length = -1 := by omega
  have transaction := @handleTransaction_of_processed sampleHashcode sampleHandle
    (fun _ => (0, 0)) world message s after _ found processed
  simp only [notFailed, if_false, ite_self] at transaction
  rw [isMessage.refid message member] at stored
  rw [unclean] at clock
  exact ⟨after, _, processed, transaction, stored, or_self_iff.mp clock⟩

/-- The arrivals are admissible, and their transactions succeed. -/
theorem sampleArrivals_succeed :
    AdmissibleAll sampleHashcode sampleHandle sampleArrivals (initComExt sampleHashcode 0) ∧
      ∃ first second third : World,
        handleTransaction sampleHashcode sampleHandle (fun _ => (0, 0))
          (initWorld sampleHashcode 0) sampleSecond = (first, 0) ∧
        handleTransaction sampleHashcode sampleHandle (fun _ => (0, 0)) first sampleOther =
          (second, 0) ∧
        handleTransaction sampleHashcode sampleHandle (fun _ => (0, 0)) second sampleFirst =
          (third, 0) ∧
        third.arrived = sampleArrivals := by
  obtain ⟨created, absent⟩ := Table.create_inv (comextOps sampleHashcode) 500 ()
  have isMessage := isMessage_sampleId
  have isOther := isMessage_sampleOther
  obtain ⟨missing, present⟩ := second_alone
  have different : otherId ≠ sampleId := by decide
  have start (fragments : List (List UInt8)) (refid : List UInt8) : Collected sampleHashcode
      (initComExt sampleHashcode 0).response refid (arrivedFragments fragments []) := by
    rw [arrivedFragments_nil]
    exact .absent (absent refid)
  have secondAdmissible : Admissible sampleHashcode ⟨sampleSecond, 0, 0⟩
      (initComExt sampleHashcode 0) :=
    ⟨legible_samples.2, fun _ => by decide, fun due => by simp [initComExt] at due⟩
  obtain ⟨first, reply, processed, handled, stored, unclean⟩ :=
    @handleTransaction_sample sampleId _ [] isMessage (initWorld sampleHashcode 0) _ rfl created
      sampleSecond (by simp) secondAdmissible (start _ _) rfl
  have otherAbsent (bucket : ComextBucket) :
      ¬ first.response.Holds (comextOps sampleHashcode) otherId bucket := fun holds =>
    absent otherId bucket ((stored.others otherId different bucket).mp holds)
  have otherAdmissible : Admissible sampleHashcode ⟨sampleOther, 0, 0⟩ first := by
    refine ⟨legible_sampleOther, fun _ => ?_, fun due => ?_⟩
    · rw [stored.grown (absent sampleId) missing]
      decide
    · rw [unclean] at due
      exact absurd due (by decide)
  obtain ⟨second, otherReply, otherProcessed, otherHandled, otherStored, stillUnclean⟩ :=
    @handleTransaction_sample otherId _ [] isOther
      ⟨some first, [⟨sampleSecond, 0, 0⟩], [reply]⟩ first rfl stored.inv sampleOther
      List.mem_cons_self otherAdmissible (by rw [arrivedFragments_nil]; exact .absent otherAbsent)
      unclean
  have collected := (stored.kept missing).of_others (otherStored.others sampleId different.symm)
  obtain ⟨bucket, holds⟩ := collected.exists_holds present
  have firstAdmissible : Admissible sampleHashcode ⟨sampleFirst, 0, 0⟩ second := by
    refine ⟨legible_samples.1, fun none => absurd holds ?_, fun due => ?_⟩
    · rw [isMessage.refid sampleFirst List.mem_cons_self] at none
      exact none bucket
    · rw [stillUnclean] at due
      exact absurd due (by decide)
  obtain ⟨third, firstReply, firstProcessed, firstHandled, -⟩ :=
    @handleTransaction_sample sampleId _ [sampleSecond] isMessage
      ⟨some second, [⟨sampleSecond, 0, 0⟩, ⟨sampleOther, 0, 0⟩], [reply, otherReply]⟩ second
      rfl otherStored.inv sampleFirst List.mem_cons_self firstAdmissible collected stillUnclean
  refine ⟨⟨secondAdmissible, fun after _ next => ?_⟩, _, _, _, handled, otherHandled,
    firstHandled, rfl⟩
  cases processed.symm.trans next
  refine ⟨otherAdmissible, fun after _ next => ?_⟩
  cases otherProcessed.symm.trans next
  exact ⟨firstAdmissible, fun _ _ _ => trivial⟩

/-- The fragments and the other message come over three connections. -/
theorem exists_sampleRun : ∃ s : Server World, Relation.ReflTransGen
      (Step bancsMessageLength (handleTransaction sampleHashcode sampleHandle fun _ => (0, 0)))
      (start (initWorld sampleHashcode 0)) s ∧
        s.received 0 = sampleFirst ∧ s.received 1 = sampleSecond ∧ s.received 2 = sampleOther ∧
        s.transactions = [(sampleFirst, true), (sampleSecond, true), (sampleOther, true)] ∧
        s.world.arrived = sampleArrivals := by
  have small : 5 ≤ fragmentPageSize := by decide
  have page {message : List UInt8} (length : message.length = 131) :
      1 ≤ message.length ∧ message.length ≤ fragmentPageSize := by
    rw [length]
    decide
  obtain ⟨-, first, second, third, secondHandled, otherHandled, firstHandled, arrived⟩ :=
    sampleArrivals_succeed
  have size : sampleId.length + (CText.literal "01ab").length = 36 := rfl
  obtain ⟨firstLength, firstWhole⟩ := @messages_sampleFragment 49 48 sampleId _ size
  obtain ⟨secondLength, secondWhole⟩ := @messages_sampleFragment 50 50 sampleId
    (CText.literal "01cd") rfl
  obtain ⟨otherLength, otherWhole⟩ := @messages_sampleFragment 49 50 otherId
    (CText.literal "01xy") rfl
  have opened : Relation.ReflTransGen (Step bancsMessageLength
      (handleTransaction sampleHashcode sampleHandle fun _ => (0, 0)))
      (start (initWorld sampleHashcode 0)) _ :=
    ((Relation.ReflTransGen.single (.accept 0)).tail (.accept 1)).tail (.accept 2)
  obtain ⟨secondLine, once⟩ := @exists_read _ _ _ _ bancsMessageLength_headerOnly small _ _ opened
    1 1 rfl rfl rfl _ (page secondLength) secondWhole _ secondHandled
  obtain ⟨otherLine, twice⟩ := @exists_read _ _ _ _ bancsMessageLength_headerOnly small _ _ once
    2 2 rfl rfl rfl _ (page otherLength) otherWhole _ otherHandled
  obtain ⟨firstLine, thrice⟩ := @exists_read _ _ _ _ bancsMessageLength_headerOnly small _ _ twice
    0 0 rfl rfl rfl _ (page firstLength) firstWhole _ firstHandled
  exact ⟨_, thrice, rfl, rfl, rfl, rfl, arrived⟩

end Sample

/-! ## Whole runs -/

section Runs

variable {hashcode handle}

/-- The whole messages in the streams of all connections. -/
def streamed (s : Server World) : List (List UInt8) :=
  (List.range s.connections).flatMap fun connection =>
    StreamFraming.messages bancsMessageLength (s.received connection)

/-- With no transaction failed, all messages of the streams have been handed over. -/
theorem map_fst_transactions {clock : Nat → Int × Int} {time : Int} {s : Server World}
    (steps : Relation.ReflTransGen
      (Step bancsMessageLength (handleTransaction hashcode handle clock))
      (start (initWorld hashcode time)) s)
    (succeeded : ∀ entry ∈ s.transactions, entry.2 = true) :
    s.transactions.map Prod.fst = streamed s := by
  have consistent := (reachable_of_steps steps).consistent bancsMessageLength_headerOnly (by decide)
  rw [Server.transactions, List.map_flatMap, streamed]
  refine List.flatMap_congr fun connection known => ?_
  cases consistent.delivered connection with
  | all all => rw [all, map_fst_succeed]
  | @failed earlier later message split last =>
      have entry : (message, false) ∈ s.transactions :=
        List.mem_flatMap.mpr ⟨connection, known, by rw [last]; simp⟩
      cases succeeded _ entry

/-- The fragments of a message may come over any connections, cut into any reads, in
any order and among any others: as long as every arrival is admissible and every
transaction succeeds, its handler is called exactly once, with the fragments in
sequence order. -/
theorem fragments_reassembled {clock : Nat → Int × Int} {time : Int} {s : Server World}
    (steps : Relation.ReflTransGen
      (Step bancsMessageLength (handleTransaction hashcode handle clock))
      (start (initWorld hashcode time)) s)
    (admissible : AdmissibleAll hashcode handle s.world.arrived (initComExt hashcode time))
    (succeeded : ∀ entry ∈ s.transactions, entry.2 = true)
    {refid : List UInt8} {fragments : List (List UInt8)} (isMessage : IsMessage refid fragments)
    (sent : ((streamed s).filter fun message => referenceID message = refid).Perm fragments) :
    s.world.callsFor refid = [⟨chooseHandler (jydm (fragments.headD [])),
        Vector.ofFn fun k => fragments[k.val]?, fragments.length - 1⟩] ∧
      ∃ comExt, s.world.comExt = some comExt ∧
        ∀ bucket, ¬ comExt.response.Holds (comextOps hashcode) refid bucket := by
  obtain ⟨order, perm, -, worldEq⟩ :=
    steps_transact bancsMessageLength_headerOnly (by decide) steps
  obtain ⟨arrived, processed⟩ := @transact_recorded hashcode handle clock time order
  rw [← worldEq] at arrived processed
  have messagesEq : s.world.arrived.map Arrival.message = order := by
    rw [arrived, map_message_mapIdx]
  have orderPerm : order.Perm (streamed s) := by
    have handed := perm.map Prod.fst
    rwa [map_fst_outcomes, map_fst_transactions steps succeeded] at handed
  have mine : ((s.world.arrived.filter fun arrival =>
      referenceID arrival.message = refid).map Arrival.message).Perm fragments := by
    have filtered := (orderPerm.filter fun message => referenceID message = refid).trans sent
    rwa [← messagesEq, List.filter_map] at filtered
  obtain ⟨last, replies, processedAll, called, removed⟩ :=
    processAll_message isMessage admissible mine
  rw [processed, Option.map_eq_some_iff] at processedAll
  obtain ⟨comExt, found, result⟩ := processedAll
  cases result
  exact ⟨called, last, found, removed⟩

/-- A message of two fragments, of which the second one comes first, over another connection and
before a third one has brought another message. -/
theorem fragments_reassembled_reversed : ∃ s : Server World,
    s.received 0 = sampleFirst ∧ s.received 1 = sampleSecond ∧ s.received 2 = sampleOther ∧
      s.world.arrived = sampleArrivals ∧
      s.world.callsFor sampleId = [⟨.iHandleNoOutputcode,
        Vector.ofFn fun k => [sampleFirst, sampleSecond][k.val]?, 1⟩] := by
  obtain ⟨s, steps, first, second, other, transactions, arrived⟩ := exists_sampleRun
  have firstRefid : referenceID sampleFirst = sampleId := referenceID_sample rfl nonzero_sampleId
  have secondRefid : referenceID sampleSecond = sampleId := referenceID_sample rfl nonzero_sampleId
  have otherRefid : referenceID sampleOther = otherId := referenceID_sample rfl nonzero_otherId
  have different : otherId ≠ sampleId := by decide
  have succeeded : ∀ entry ∈ s.transactions, entry.2 = true := by simp [transactions]
  have sent : ((streamed s).filter fun message =>
      referenceID message = sampleId).Perm [sampleFirst, sampleSecond] := by
    rw [← map_fst_transactions steps succeeded, transactions]
    simp [firstRefid, secondRefid, otherRefid, different]
  have code : chooseHandler (jydm sampleFirst) = .iHandleNoOutputcode := by
    have digits : jydm sampleFirst = CText.literal "000000" := rfl
    rw [digits]
    decide
  have reassembled := fragments_reassembled steps (arrived ▸ sampleArrivals_succeed.1) succeeded
    isMessage_sampleId sent
  refine ⟨s, first, second, other, arrived, ?_⟩
  rw [reassembled.1, ← code]
  rfl

/-- A handler only ever sees fragments of the reference id that it answers, and each
of them is a message that some connection has sent. -/
theorem calls_unmixed {clock : Nat → Int × Int} {time : Int} {s : Server World}
    (steps : Relation.ReflTransGen
      (Step bancsMessageLength (handleTransaction hashcode handle clock))
      (start (initWorld hashcode time)) s)
    (admissible : AdmissibleAll hashcode handle s.world.arrived (initComExt hashcode time)) :
    ∀ entry ∈ s.world.arrived.zip s.world.replies, ∀ call ∈ entry.2.calls, ∀ fragment,
      some fragment ∈ call.fragments.toList →
        referenceID fragment = referenceID entry.1.message ∧
          ∃ connection, fragment ∈
            StreamFraming.messages bancsMessageLength (s.received connection) := by
  obtain ⟨order, perm, -, worldEq⟩ :=
    steps_transact bancsMessageLength_headerOnly (by decide) steps
  obtain ⟨arrived, processed⟩ := @transact_recorded hashcode handle clock time order
  rw [← worldEq] at arrived processed
  have consistent := (reachable_of_steps steps).consistent bancsMessageLength_headerOnly (by decide)
  obtain ⟨created, absent⟩ := Table.create_inv (comextOps hashcode) 500 ()
  obtain ⟨last, replies, total, -⟩ := processAll_total created admissible
  obtain ⟨comExt, -, result⟩ := Option.map_eq_some_iff.mp (processed.symm.trans total)
  have processedAll : processAll hashcode handle s.world.arrived (initComExt hashcode time) =
      some (last, s.world.replies) := by
    rw [total, (Prod.mk.inj result).2]
  have empty : Unmixed hashcode (initComExt hashcode time).response [] :=
    fun refid bucket holds => absurd holds (absent refid bucket)
  intro entry member call made fragment inside
  obtain ⟨mine, known⟩ := processAll_unmixed empty (.start time) admissible processedAll entry
    member call made fragment inside
  refine ⟨mine, ?_⟩
  rw [List.nil_append, arrived, map_message_mapIdx] at known
  have handed : fragment ∈ s.transactions.map Prod.fst := by
    have handedPerm := perm.map Prod.fst
    rw [map_fst_outcomes] at handedPerm
    exact handedPerm.mem_iff.mp known
  obtain ⟨⟨_, flag⟩, transaction, rfl⟩ := List.mem_map.mp handed
  obtain ⟨connection, -, logged⟩ := List.mem_flatMap.mp transaction
  refine ⟨connection, ?_⟩
  cases consistent.delivered connection with
  | all all =>
      rw [all] at logged
      obtain ⟨message, sent, same⟩ := List.mem_map.mp logged
      cases same
      exact sent
  | @failed earlier later message split last =>
      rw [last, List.mem_append, List.mem_singleton] at logged
      rw [split]
      rcases logged with early | final
      · obtain ⟨message, sent, same⟩ := List.mem_map.mp early
        cases same
        exact List.mem_append_left _ sent
      · cases final
        exact List.mem_append_right _ List.mem_cons_self

/-- The same run. -/
theorem calls_unmixed_reversed : ∃ s : Server World,
    s.received 0 = sampleFirst ∧ s.received 1 = sampleSecond ∧ s.received 2 = sampleOther ∧
      s.world.arrived = sampleArrivals ∧
    ∀ entry ∈ s.world.arrived.zip s.world.replies, ∀ call ∈ entry.2.calls, ∀ fragment,
      some fragment ∈ call.fragments.toList →
        referenceID fragment = referenceID entry.1.message ∧
          ∃ connection, fragment ∈
            StreamFraming.messages bancsMessageLength (s.received connection) := by
  obtain ⟨s, steps, first, second, other, -, arrived⟩ := exists_sampleRun
  exact ⟨s, first, second, other, arrived,
    calls_unmixed steps (arrived ▸ sampleArrivals_succeed.1)⟩

end Runs

end FrameCode.AsynccomBancs
