import FrameCode.MachineInt
import FrameCode.QuadraticProbing
import Mathlib.Data.List.GetD

/-!
# Open addressing with tombstones

A table of slots addressed by quadratic probing.  Deleting an entry leaves a
tombstone that keeps its key; a table whose free slots run short is rebuilt at
another prime size from its live entries.  The functions follow the shape of
the C code: counters are unsigned 32-bit numbers, a search that leaves the table
is `none`, and the mutual recursion of insertion and rebuilding is bounded by a
fuel that the callers choose from the number of live entries.

Everything is generic in the slots, the keys and a value `extra` that a table
carries beside its slots.
-/

namespace FrameCode.OpenAddressing

open QuadraticProbing MachineInt

inductive Status
  | empty
  | deleted
  | live
deriving DecidableEq, Repr

/-- What a table has to know about its slots and its sizes.  The last fields
state the facts about table sizes on which the invariant rests: every size is
an odd prime, and up to `limit` entries a rebuilt table is at most half full. -/
structure SlotOps (σ κ ε : Type) where
  status : σ → Status
  key : σ → κ
  hash : κ → Nat
  blank : σ
  erase : σ → σ
  wipe : σ → σ
  sizeFor : Int → Nat
  extra : ε
  carry : ε → ε
  limit : Nat
  status_blank : status blank = .empty
  status_erase : ∀ slot, status (erase slot) = .deleted
  key_erase : ∀ slot, key (erase slot) = key slot
  status_wipe : ∀ slot, status (wipe slot) = .empty
  prime_sizeFor : ∀ capacity, (sizeFor capacity).Prime
  odd_sizeFor : ∀ capacity, sizeFor capacity % 2 = 1
  sizeFor_lt : ∀ capacity, sizeFor capacity < 4294967296
  limit_lt : limit < 1073741824
  fits : ∀ entries : Nat, entries ≤ limit → entries ≤ sizeFor (2 * entries) / 2
  room : ∀ entries : Nat, entries < limit → entries < sizeFor (2 * entries) / 2

structure Table (σ ε : Type) where
  numberOfBuckets : Nat
  inuse : Nat
  empty : Nat
  extra : ε
  buckets : List σ

namespace Table

variable {σ κ ε : Type} (ops : SlotOps σ κ ε)

/-- A fresh table with no entry. -/
def create (capacity : Int) : Table σ ε where
  numberOfBuckets := ops.sizeFor capacity
  inuse := 0
  empty := ops.sizeFor capacity
  extra := ops.extra
  buckets := List.replicate (ops.sizeFor capacity) ops.blank

def slot (table : Table σ ε) (position : Nat) : σ := table.buckets.getD position ops.blank

/-- The `k`-th position examined for a key. -/
def probe (table : Table σ ε) (key : κ) (k : Nat) : Nat :=
  slotAt table.numberOfBuckets (ops.hash key % table.numberOfBuckets) k

def retrieve (table : Table σ ε) (position : Nat) : Option σ :=
  if ops.status (table.slot ops position) = .live then some (table.slot ops position) else none

/-- Turn a live slot into a tombstone; `none` reports that it was not live. -/
def delete (table : Table σ ε) (position : Nat) : Table σ ε × Option Nat :=
  if ops.status (table.slot ops position) = .live then
    ({ table with
        inuse := pred32 table.inuse
        buckets := table.buckets.set position (ops.erase (table.slot ops position)) },
      some position)
  else (table, none)

def clear (table : Table σ ε) (extra : ε) : Table σ ε :=
  { table with
    inuse := 0
    empty := table.numberOfBuckets
    extra := extra
    buckets := table.buckets.map ops.wipe }

/-! ## The invariant -/

/-- The slot has been used: it is live or a tombstone. -/
def Occupied (table : Table σ ε) (position : Nat) : Prop :=
  ops.status (table.slot ops position) ≠ .empty

instance (table : Table σ ε) (position : Nat) : Decidable (table.Occupied ops position) :=
  inferInstanceAs (Decidable (_ ≠ _))

/-- `entry` is the live entry of the key. -/
def Holds (table : Table σ ε) (key : κ) (entry : σ) : Prop :=
  entry ∈ table.buckets ∧ ops.status entry = .live ∧ ops.key entry = key

/-- The representation invariant: exact counters, more than half of the slots
free, no key used twice, and every used slot reachable along its probe
sequence. -/
structure Inv (table : Table σ ε) : Prop where
  sized : ∃ capacity, table.numberOfBuckets = ops.sizeFor capacity
  length_buckets : table.buckets.length = table.numberOfBuckets
  inuse_eq : table.inuse = table.buckets.countP fun s => decide (ops.status s = .live)
  empty_eq : table.empty = table.buckets.countP fun s => decide (ops.status s = .empty)
  half_empty : table.numberOfBuckets / 2 < table.empty
  distinct : ∀ p < table.numberOfBuckets, ∀ q < table.numberOfBuckets,
    table.Occupied ops p → table.Occupied ops q →
    ops.key (table.slot ops p) = ops.key (table.slot ops q) → p = q
  reachable : ∀ p < table.numberOfBuckets, table.Occupied ops p →
    ∃ k, table.probe ops (ops.key (table.slot ops p)) k = p ∧
      ∀ i < k, table.Occupied ops (table.probe ops (ops.key (table.slot ops p)) i)

/-- Every live key is one of the given ones. -/
def KeysAmong (table : Table σ ε) (keys : List κ) : Prop :=
  ∀ key entry, table.Holds ops key entry → key ∈ keys

/-- The part of the invariant on which a search that stays in the table rests.  It also
holds of a table with more entries than a rebuilt one has room for. -/
structure Sound (table : Table σ ε) : Prop where
  positive : 0 < table.numberOfBuckets
  length_buckets : table.buckets.length = table.numberOfBuckets
  distinct : ∀ p < table.numberOfBuckets, ∀ q < table.numberOfBuckets,
    table.Occupied ops p → table.Occupied ops q →
    ops.key (table.slot ops p) = ops.key (table.slot ops q) → p = q
  reachable : ∀ p < table.numberOfBuckets, table.Occupied ops p →
    ∃ k, table.probe ops (ops.key (table.slot ops p)) k = p ∧
      ∀ i < k, table.Occupied ops (table.probe ops (ops.key (table.slot ops p)) i)

section Slots

variable {table : Table σ ε}

theorem slot_eq_getElem {position : Nat} (inside : position < table.buckets.length) :
    table.slot ops position = table.buckets[position] :=
  List.getD_eq_getElem _ _ inside

theorem slot_mem {position : Nat} (inside : position < table.buckets.length) :
    table.slot ops position ∈ table.buckets := by
  rw [slot_eq_getElem ops inside]
  exact List.getElem_mem inside

theorem exists_slot_of_mem {entry : σ} (member : entry ∈ table.buckets) :
    ∃ position < table.buckets.length, table.slot ops position = entry := by
  obtain ⟨position, inside, found⟩ := List.mem_iff_getElem.mp member
  exact ⟨position, inside, by rw [slot_eq_getElem ops inside, found]⟩

variable {ops} in
theorem occupied_of_live {position : Nat}
    (live : ops.status (table.slot ops position) = .live) : table.Occupied ops position := by
  simp [Occupied, live]

variable {ops} in
theorem slot_similar {after : Table σ ε}
    (similar : List.Forall₂ (fun old new => ops.status new = ops.status old ∧
      ops.key new = ops.key old) table.buckets after.buckets) (position : Nat) :
    ops.status (after.slot ops position) = ops.status (table.slot ops position) ∧
      ops.key (after.slot ops position) = ops.key (table.slot ops position) := by
  by_cases inside : position < table.buckets.length
  · have insideAfter : position < after.buckets.length := similar.length_eq ▸ inside
    rw [slot_eq_getElem ops inside, slot_eq_getElem ops insideAfter]
    exact similar.get inside insideAfter
  · have outsideAfter : ¬ position < after.buckets.length := similar.length_eq ▸ inside
    unfold slot
    rw [List.getD_eq_default _ _ (not_lt.mp inside),
      List.getD_eq_default _ _ (not_lt.mp outsideAfter)]
    exact ⟨rfl, rfl⟩

variable {ops} in
theorem status_of_mem_clear (extra : ε) {entry : σ}
    (member : entry ∈ (table.clear ops extra).buckets) : ops.status entry = .empty := by
  obtain ⟨old, -, rfl⟩ := List.mem_map.mp member
  exact ops.status_wipe old

/-- Replacing one slot changes exactly that slot. -/
theorem getD_set_of_lt (buckets : List σ) {position : Nat} (inside : position < buckets.length)
    (entry blank : σ) (other : Nat) :
    (buckets.set position entry).getD other blank =
      if other = position then entry else buckets.getD other blank := by
  by_cases same : other = position
  · subst same
    simp [List.getD_eq_getElem?_getD, inside]
  · simp [List.getD_eq_getElem?_getD, List.getElem?_set_ne (Ne.symm same), same]

theorem mem_set_iff {buckets : List σ} {position : Nat} (inside : position < buckets.length)
    (entry blank other : σ) :
    other ∈ buckets.set position entry ↔
      other = entry ∨ ∃ p < buckets.length, p ≠ position ∧ buckets.getD p blank = other := by
  constructor
  · intro member
    obtain ⟨p, pInside, found⟩ := List.mem_iff_getElem.mp member
    rw [List.length_set] at pInside
    rw [← List.getD_eq_getElem _ blank, getD_set_of_lt buckets inside] at found
    by_cases here : p = position
    · rw [if_pos here] at found
      exact Or.inl found.symm
    · rw [if_neg here] at found
      exact Or.inr ⟨p, pInside, here, found⟩
  · rintro (rfl | ⟨p, pInside, here, rfl⟩)
    · exact List.mem_set inside _
    · have kept : (buckets.set position entry).getD p blank = buckets.getD p blank := by
        rw [getD_set_of_lt buckets inside, if_neg here]
      rw [← kept, List.getD_eq_getElem _ _ (by simpa using pInside)]
      exact List.getElem_mem _

private theorem card_filter_range (test : σ → Bool) (blank : σ) (buckets : List σ) :
    ((Finset.range buckets.length).filter fun p => test (buckets.getD p blank)).card =
      buckets.countP test := by
  induction buckets using List.reverseRecOn with
  | nil => simp
  | append_singleton buckets last ih =>
      have unchanged : ((Finset.range buckets.length).filter fun p =>
            test ((buckets ++ [last]).getD p blank)) =
          (Finset.range buckets.length).filter fun p => test (buckets.getD p blank) := by
        apply Finset.filter_congr
        intro p member
        rw [List.getD_append _ _ _ _ (Finset.mem_range.mp member)]
      have final : (buckets ++ [last]).getD buckets.length blank = last := by
        simp [List.getD_eq_getElem?_getD]
      rw [List.length_append, List.length_singleton, Finset.range_add_one,
        Finset.filter_insert, final, unchanged, List.countP_append, List.countP_singleton]
      by_cases tested : test last
      · rw [if_pos tested, if_pos tested, Finset.card_insert_of_notMem (by simp), ih]
      · rw [if_neg tested, if_neg tested, ih, Nat.add_zero]

end Slots

namespace Sound

variable {ops}
variable {table : Table σ ε}

theorem probe_lt (sound : table.Sound ops) (key : κ) (k : Nat) :
    table.probe ops key k < table.numberOfBuckets :=
  slotAt_lt sound.positive _ _

/-- A table without a used slot. -/
theorem of_free (positive : 0 < table.numberOfBuckets)
    (length_buckets : table.buckets.length = table.numberOfBuckets)
    (free : ∀ p < table.numberOfBuckets, ¬ table.Occupied ops p) : table.Sound ops :=
  ⟨positive, length_buckets, fun p inside _ _ used => absurd used (free p inside),
    fun p inside used => absurd used (free p inside)⟩

/-- No slot of a cleared table is used. -/
theorem clear (sound : table.Sound ops) (extra : ε) : (table.clear ops extra).Sound ops := by
  have length_buckets : (table.clear ops extra).buckets.length = table.numberOfBuckets := by
    simpa [Table.clear] using sound.length_buckets
  refine of_free sound.positive length_buckets fun p inside => ?_
  have member : (table.clear ops extra).slot ops p ∈ (table.clear ops extra).buckets :=
    slot_mem ops (length_buckets.symm ▸ inside)
  simp [Occupied, status_of_mem_clear extra member]

/-- Writing a used slot where its key belongs. -/
theorem replace (sound : table.Sound ops) {position : Nat}
    (inside : position < table.numberOfBuckets) {entry : σ}
    (used : ops.status entry ≠ .empty)
    (unique : ∀ p < table.numberOfBuckets, table.Occupied ops p →
      ops.key (table.slot ops p) = ops.key entry → p = position)
    (path : ∃ k, table.probe ops (ops.key entry) k = position ∧
      ∀ i < k, table.Occupied ops (table.probe ops (ops.key entry) i)) (inuse empty : Nat) :
    Sound ops { table with
      inuse := inuse
      empty := empty
      buckets := table.buckets.set position entry } := by
  have written (p : Nat) : (table.buckets.set position entry).getD p ops.blank =
      if p = position then entry else table.slot ops p :=
    getD_set_of_lt _ (sound.length_buckets ▸ inside) _ _ _
  have stillUsed {p : Nat} (before : table.Occupied ops p) :
      ops.status ((table.buckets.set position entry).getD p ops.blank) ≠ .empty := by
    rw [written]
    split
    · exact used
    · exact before
  refine ⟨sound.positive, by simpa using sound.length_buckets, ?_, ?_⟩
  · intro p pInside q qInside pUsed qUsed sameKey
    simp only [Occupied, slot, written] at pUsed qUsed sameKey
    by_cases pHere : p = position
    · by_cases qHere : q = position
      · rw [pHere, qHere]
      · simp only [pHere, qHere, if_true, if_false] at qUsed sameKey
        exact pHere.trans (unique q qInside qUsed sameKey.symm).symm
    · by_cases qHere : q = position
      · simp only [pHere, qHere, if_true, if_false] at pUsed sameKey
        exact (unique p pInside pUsed sameKey).trans qHere.symm
      · simp only [pHere, qHere, if_false] at pUsed qUsed sameKey
        exact sound.distinct p pInside q qInside pUsed qUsed sameKey
  · intro p pInside pUsed
    by_cases pHere : p = position
    · obtain ⟨k, reaches, before⟩ := path
      have key_eq : (table.buckets.set position entry).getD p ops.blank = entry := by
        rw [written, if_pos pHere]
      simp only [slot, key_eq]
      exact ⟨k, reaches.trans pHere.symm, fun i less => stillUsed (before i less)⟩
    · have key_eq : (table.buckets.set position entry).getD p ops.blank = table.slot ops p := by
        rw [written, if_neg pHere]
      simp only [Occupied, slot, key_eq] at pUsed ⊢
      obtain ⟨k, reaches, before⟩ := sound.reachable p pInside pUsed
      exact ⟨k, reaches, fun i less => stillUsed (before i less)⟩

theorem pairwise_live (sound : table.Sound ops) :
    table.buckets.Pairwise fun a b => ops.status a = .live → ops.status b = .live →
      ops.key a ≠ ops.key b := by
  rw [List.pairwise_iff_getElem]
  intro p q pInside qInside less pLive qLive sameKey
  rw [← slot_eq_getElem ops pInside] at pLive sameKey
  rw [← slot_eq_getElem ops qInside] at qLive sameKey
  rw [sound.length_buckets] at pInside qInside
  exact less.ne (sound.distinct p pInside q qInside (occupied_of_live pLive)
    (occupied_of_live qLive) sameKey)

/-- Slots that change neither status nor key leave the table sound. -/
theorem of_similar (sound : table.Sound ops) {after : Table σ ε}
    (size_eq : after.numberOfBuckets = table.numberOfBuckets)
    (similar : List.Forall₂ (fun old new => ops.status new = ops.status old ∧
      ops.key new = ops.key old) table.buckets after.buckets) : after.Sound ops := by
  have statusKey := slot_similar similar
  have usedIff (p : Nat) : after.Occupied ops p ↔ table.Occupied ops p := by
    simp [Occupied, (statusKey p).1]
  have probeEq (key : κ) (k : Nat) : after.probe ops key k = table.probe ops key k := by
    simp [probe, size_eq]
  refine ⟨size_eq ▸ sound.positive, ?_, ?_, ?_⟩
  · rw [← similar.length_eq, sound.length_buckets, size_eq]
  · intro p pInside q qInside pUsed qUsed sameKey
    rw [(statusKey p).2, (statusKey q).2] at sameKey
    exact sound.distinct p (size_eq ▸ pInside) q (size_eq ▸ qInside) ((usedIff p).mp pUsed)
      ((usedIff q).mp qUsed) sameKey
  · intro p inside used
    simp only [(statusKey p).2, probeEq, usedIff]
    exact sound.reachable p (size_eq ▸ inside) ((usedIff p).mp used)

/-- The bindings after a slot has been turned into a tombstone. -/
theorem holds_erase (sound : table.Sound ops) {position : Nat}
    (inside : position < table.numberOfBuckets) (used : table.Occupied ops position) (key : κ)
    (entry : σ) :
    (entry ∈ table.buckets.set position (ops.erase (table.slot ops position)) ∧
        ops.status entry = .live ∧ ops.key entry = key) ↔
      table.Holds ops key entry ∧ key ≠ ops.key (table.slot ops position) := by
  have listInside : position < table.buckets.length := sound.length_buckets ▸ inside
  simp only [Holds, mem_set_iff listInside _ ops.blank]
  constructor
  · rintro ⟨rfl | ⟨p, pInside, here, rfl⟩, entryLive, rfl⟩
    · simp [ops.status_erase] at entryLive
    · refine ⟨⟨slot_mem ops pInside, entryLive, rfl⟩, ?_⟩
      intro sameKey
      rw [sound.length_buckets] at pInside
      exact here (sound.distinct p pInside position inside
        (occupied_of_live entryLive) used sameKey)
  · rintro ⟨⟨member, entryLive, rfl⟩, other⟩
    obtain ⟨p, pInside, rfl⟩ := exists_slot_of_mem ops member
    exact ⟨Or.inr ⟨p, pInside, fun here => other (by rw [here]), rfl⟩, entryLive, rfl⟩

theorem erase (sound : table.Sound ops) {position : Nat}
    (inside : position < table.numberOfBuckets) (used : table.Occupied ops position)
    (inuse empty : Nat) :
    Sound ops { table with
      inuse := inuse
      empty := empty
      buckets := table.buckets.set position (ops.erase (table.slot ops position)) } := by
  apply sound.replace inside
  · simp [ops.status_erase]
  · intro p pInside pUsed sameKey
    rw [ops.key_erase] at sameKey
    exact sound.distinct p pInside position inside pUsed used sameKey
  · rw [ops.key_erase]
    exact sound.reachable position inside used

/-- Deleting leaves the table sound and removes at most the key of the slot. -/
theorem delete (sound : table.Sound ops) {position : Nat}
    (inside : position < table.numberOfBuckets) :
    (table.delete ops position).1.Sound ops ∧
      ∀ key entry, (table.delete ops position).1.Holds ops key entry ↔
        table.Holds ops key entry ∧ (ops.status (table.slot ops position) = .live →
          key ≠ ops.key (table.slot ops position)) := by
  unfold Table.delete
  by_cases live : ops.status (table.slot ops position) = .live
  · rw [if_pos live]
    refine ⟨sound.erase inside (occupied_of_live live) _ _, fun key entry => ?_⟩
    refine (sound.holds_erase inside (occupied_of_live live) key entry).trans ?_
    simp [live]
  · rw [if_neg live]
    exact ⟨sound, fun key entry => by simp [live]⟩

/-- The bindings after a live slot has been written over one that is not live. -/
theorem holds_set (sound : table.Sound ops) {position : Nat}
    (inside : position < table.numberOfBuckets)
    (dead : ops.status (table.slot ops position) ≠ .live) {entry : σ}
    (live : ops.status entry = .live) (key : κ) (other : σ) :
    (other ∈ table.buckets.set position entry ∧ ops.status other = .live ∧
        ops.key other = key) ↔
      (other = entry ∧ ops.key entry = key) ∨ table.Holds ops key other := by
  have listInside : position < table.buckets.length := sound.length_buckets ▸ inside
  rw [mem_set_iff listInside _ ops.blank]
  constructor
  · rintro ⟨rfl | ⟨p, pInside, here, rfl⟩, alive, keyEq⟩
    · exact Or.inl ⟨rfl, keyEq⟩
    · exact Or.inr ⟨slot_mem ops pInside, alive, keyEq⟩
  · rintro (⟨rfl, keyEq⟩ | ⟨member, alive, keyEq⟩)
    · exact ⟨Or.inl rfl, live, keyEq⟩
    · obtain ⟨p, pInside, rfl⟩ := exists_slot_of_mem ops member
      exact ⟨Or.inr ⟨p, pInside, fun here => dead (here ▸ alive), rfl⟩, alive, keyEq⟩

end Sound

theorem create_inv (capacity : Int) (extra : ε) :
    Inv ops { create ops capacity with extra := extra } ∧
      ∀ key entry, ¬ Holds ops { create ops capacity with extra := extra } key entry := by
  have free (p : Nat) : ¬ Occupied ops { create ops capacity with extra := extra } p := by
    have blank : slot ops { create ops capacity with extra := extra } p = ops.blank := by
      by_cases inside : p < ops.sizeFor capacity <;>
        simp [slot, create, List.getD_eq_getElem?_getD, inside]
    simp [Occupied, blank, ops.status_blank]
  have positive := (ops.prime_sizeFor capacity).pos
  refine ⟨⟨⟨capacity, rfl⟩, by simp [create], ?_, ?_, ?_, ?_, ?_⟩, ?_⟩
  · simp [create, List.countP_replicate, ops.status_blank]
  · simp [create, List.countP_replicate, ops.status_blank]
  · simp only [create]
    omega
  · intro p _ _ _ used
    exact absurd used (free p)
  · intro p _ used
    exact absurd used (free p)
  · rintro key entry ⟨member, live, -⟩
    rw [List.eq_of_mem_replicate member, ops.status_blank] at live
    cases live

namespace Inv

variable {ops}
variable {table : Table σ ε}

theorem prime (inv : table.Inv ops) : table.numberOfBuckets.Prime := by
  obtain ⟨capacity, sized⟩ := inv.sized
  exact sized ▸ ops.prime_sizeFor capacity

theorem sound (inv : table.Inv ops) : table.Sound ops :=
  ⟨inv.prime.pos, inv.length_buckets, inv.distinct, inv.reachable⟩

theorem odd (inv : table.Inv ops) : table.numberOfBuckets % 2 = 1 := by
  obtain ⟨capacity, sized⟩ := inv.sized
  exact sized ▸ ops.odd_sizeFor capacity

theorem size_lt (inv : table.Inv ops) : table.numberOfBuckets < 4294967296 := by
  obtain ⟨capacity, sized⟩ := inv.sized
  exact sized ▸ ops.sizeFor_lt capacity

theorem probe_lt (inv : table.Inv ops) (key : κ) (k : Nat) :
    table.probe ops key k < table.numberOfBuckets :=
  slotAt_lt inv.prime.pos _ _

theorem empty_le (inv : table.Inv ops) : table.empty ≤ table.numberOfBuckets := by
  rw [inv.empty_eq, ← inv.length_buckets]
  exact List.countP_le_length

variable (ops) in
private theorem countP_live_add_empty_le (slots : List σ) :
    (slots.countP fun s => decide (ops.status s = .live)) +
      (slots.countP fun s => decide (ops.status s = .empty)) ≤ slots.length := by
  induction slots with
  | nil => simp
  | cons s rest ih =>
      simp only [List.countP_cons, List.length_cons]
      cases ops.status s <;> simp <;> omega

private theorem ne_deleted_of_countP {slots : List σ}
    (total : (slots.countP fun s => decide (ops.status s = .live)) +
      (slots.countP fun s => decide (ops.status s = .empty)) = slots.length) :
    ∀ s ∈ slots, ops.status s ≠ .deleted := by
  induction slots with
  | nil => simp
  | cons s rest ih =>
      have bound := countP_live_add_empty_le ops rest
      simp only [List.countP_cons, List.length_cons] at total
      intro other member
      rcases List.mem_cons.mp member with rfl | later
      · intro deleted
        simp [deleted] at total
        omega
      · refine ih ?_ other later
        cases status : ops.status s <;> simp [status] at total <;> omega

theorem inuse_lt (inv : table.Inv ops) : table.inuse + table.empty ≤ table.numberOfBuckets := by
  rw [inv.empty_eq, inv.inuse_eq, ← inv.length_buckets]
  exact countP_live_add_empty_le ops table.buckets

/-- The used slots are those that are not empty. -/
theorem card_occupied (inv : table.Inv ops) :
    ((Finset.range table.numberOfBuckets).filter fun p =>
      decide (table.Occupied ops p)).card + table.empty = table.numberOfBuckets := by
  have total := card_filter_range (fun s => decide (ops.status s ≠ .empty)) ops.blank
    table.buckets
  rw [inv.length_buckets] at total
  have complement : (table.buckets.countP fun s => decide (ops.status s ≠ .empty)) +
      table.empty = table.numberOfBuckets := by
    rw [inv.empty_eq, ← inv.length_buckets,
      List.length_eq_countP_add_countP (fun s => decide (ops.status s = .empty))]
    rw [Nat.add_comm]
    congr 1
    apply List.countP_congr
    simp
  have same : ((Finset.range table.numberOfBuckets).filter fun p =>
      decide (table.Occupied ops p) = true) =
      (Finset.range table.numberOfBuckets).filter fun p =>
        decide (ops.status (table.buckets.getD p ops.blank) ≠ .empty) = true := rfl
  rw [same, total, complement]

/-- A table without tombstones has only live and empty slots. -/
theorem live_of_occupied (inv : table.Inv ops)
    (noTombstone : table.empty + table.inuse = table.numberOfBuckets) {position : Nat}
    (inside : position < table.numberOfBuckets) (used : table.Occupied ops position) :
    ops.status (table.slot ops position) = .live := by
  have total : (table.buckets.countP fun s => decide (ops.status s = .live)) +
      (table.buckets.countP fun s => decide (ops.status s = .empty)) = table.buckets.length := by
    rw [← inv.empty_eq, ← inv.inuse_eq, inv.length_buckets]
    omega
  have kept := ne_deleted_of_countP total _ (slot_mem ops (inv.length_buckets ▸ inside))
  cases status : ops.status (table.slot ops position) with
  | empty => exact absurd status used
  | deleted => exact absurd status kept
  | live => rfl

/-- More than half of the slots are free, so the first half of every probe
sequence reaches a free slot. -/
theorem exists_free (inv : table.Inv ops) (key : κ) :
    ∃ k < (table.numberOfBuckets + 1) / 2, ¬ table.Occupied ops (table.probe ops key k) := by
  have counted : ((Finset.range table.numberOfBuckets).filter fun p =>
      decide (table.Occupied ops p)).card < (table.numberOfBuckets + 1) / 2 := by
    have total := inv.card_occupied
    have half := inv.half_empty
    have odd := inv.odd
    omega
  obtain ⟨k, bound, free⟩ := exists_free_slotAt inv.prime
    (ops.hash key % table.numberOfBuckets) (fun p => decide (table.Occupied ops p)) counted
  exact ⟨k, bound, by simpa [probe] using free⟩

/-- Writing a used slot where its key belongs keeps the invariant, whatever the
new counters are, as long as they count. -/
theorem replace (inv : table.Inv ops) {position : Nat}
    (inside : position < table.numberOfBuckets) {entry : σ}
    (used : ops.status entry ≠ .empty)
    (unique : ∀ p < table.numberOfBuckets, table.Occupied ops p →
      ops.key (table.slot ops p) = ops.key entry → p = position)
    (path : ∃ k, table.probe ops (ops.key entry) k = position ∧
      ∀ i < k, table.Occupied ops (table.probe ops (ops.key entry) i))
    {inuse empty : Nat}
    (inuse_eq : inuse = (table.buckets.set position entry).countP
      fun s => decide (ops.status s = .live))
    (empty_eq : empty = (table.buckets.set position entry).countP
      fun s => decide (ops.status s = .empty))
    (half_empty : table.numberOfBuckets / 2 < empty) :
    Inv ops { table with
      inuse := inuse
      empty := empty
      buckets := table.buckets.set position entry } := by
  have kept := inv.sound.replace inside used unique path inuse empty
  exact ⟨inv.sized, kept.length_buckets, inuse_eq, empty_eq, half_empty, kept.distinct,
    kept.reachable⟩

private theorem countP_similar {old new : List σ}
    (similar : List.Forall₂ (fun before after => ops.status after = ops.status before ∧
      ops.key after = ops.key before) old new) (wanted : Status) :
    (new.countP fun s => decide (ops.status s = wanted)) =
      old.countP fun s => decide (ops.status s = wanted) := by
  induction similar with
  | nil => rfl
  | cons same _ ih => simp [List.countP_cons, same.1, ih]

/-- Slots that change neither status nor key keep the invariant. -/
theorem of_similar (inv : table.Inv ops) {after : Table σ ε}
    (size_eq : after.numberOfBuckets = table.numberOfBuckets)
    (inuse_eq : after.inuse = table.inuse) (empty_eq : after.empty = table.empty)
    (similar : List.Forall₂ (fun old new => ops.status new = ops.status old ∧
      ops.key new = ops.key old) table.buckets after.buckets) : after.Inv ops := by
  have kept := inv.sound.of_similar size_eq similar
  have count := countP_similar similar
  refine ⟨size_eq ▸ inv.sized, kept.length_buckets, ?_, ?_, ?_, kept.distinct, kept.reachable⟩
  · rw [inuse_eq, inv.inuse_eq, count]
  · rw [empty_eq, inv.empty_eq, count]
  · rw [size_eq, empty_eq]
    exact inv.half_empty

/-- Deleting a live slot keeps the invariant and removes exactly its key. -/
theorem delete_spec (inv : table.Inv ops) {position : Nat}
    (inside : position < table.numberOfBuckets)
    (live : ops.status (table.slot ops position) = .live) :
    ∃ after, table.delete ops position = (after, some position) ∧ after.Inv ops ∧
      after.numberOfBuckets = table.numberOfBuckets ∧ after.extra = table.extra ∧
      after.inuse + 1 = table.inuse ∧
      ∀ key entry, after.Holds ops key entry ↔
        table.Holds ops key entry ∧ key ≠ ops.key (table.slot ops position) := by
  have used := occupied_of_live live
  have listInside : position < table.buckets.length := inv.length_buckets ▸ inside
  have current : table.buckets[position] = table.slot ops position :=
    (slot_eq_getElem ops listInside).symm
  have counted : 0 < table.inuse := by
    rw [inv.inuse_eq, List.countP_pos_iff]
    exact ⟨_, slot_mem ops listInside, by simpa using live⟩
  have small := inv.inuse_lt
  have sizeBound := inv.size_lt
  have decreased : pred32 table.inuse = table.inuse - 1 := pred32_eq counted (by omega)
  unfold delete
  rw [if_pos live]
  refine ⟨_, rfl, ?_, rfl, rfl, by simp only [decreased]; omega,
    inv.sound.holds_erase inside used⟩
  have kept := inv.sound.erase inside used (pred32 table.inuse) table.empty
  refine ⟨inv.sized, kept.length_buckets, ?_, ?_, inv.half_empty, kept.distinct, kept.reachable⟩
  · rw [List.countP_set listInside, decreased, inv.inuse_eq]
    simp [current, live, ops.status_erase]
  · rw [List.countP_set listInside, inv.empty_eq]
    simp [current, live, ops.status_erase]

/-- Replacing a live slot by another one of its key keeps the invariant. -/
theorem update_spec (inv : table.Inv ops) {position : Nat}
    (inside : position < table.numberOfBuckets)
    (live : ops.status (table.slot ops position) = .live) {entry : σ}
    (entryLive : ops.status entry = .live)
    (sameKey : ops.key entry = ops.key (table.slot ops position)) :
    Inv ops { table with buckets := table.buckets.set position entry } ∧
      ∀ key other, Holds ops { table with buckets := table.buckets.set position entry }
        key other ↔ (other = entry ∧ ops.key entry = key) ∨
          (table.Holds ops key other ∧ ops.key entry ≠ key) := by
  have used := occupied_of_live live
  have listInside : position < table.buckets.length := inv.length_buckets ▸ inside
  have current : table.buckets[position] = table.slot ops position :=
    (slot_eq_getElem ops listInside).symm
  have positive : 0 < table.buckets.countP fun s => decide (ops.status s = .live) :=
    List.countP_pos_iff.mpr ⟨_, slot_mem ops listInside, by simpa using live⟩
  refine ⟨?_, ?_⟩
  · apply inv.replace inside
    · simp [entryLive]
    · intro p pInside pUsed keyEq
      exact inv.distinct p pInside position inside pUsed used (keyEq.trans sameKey)
    · rw [sameKey]
      exact inv.reachable position inside used
    · rw [List.countP_set listInside, inv.inuse_eq]
      simp [current, live, entryLive]
      omega
    · rw [List.countP_set listInside, inv.empty_eq]
      simp [current, live, entryLive]
    · exact inv.half_empty
  · intro key other
    simp only [Holds, mem_set_iff listInside _ ops.blank]
    constructor
    · rintro ⟨rfl | ⟨p, pInside, here, rfl⟩, otherLive, rfl⟩
      · exact Or.inl ⟨rfl, rfl⟩
      · refine Or.inr ⟨⟨slot_mem ops pInside, otherLive, rfl⟩, fun keyEq => here ?_⟩
        rw [inv.length_buckets] at pInside
        exact inv.distinct p pInside position inside (occupied_of_live otherLive) used
          (keyEq.symm.trans sameKey)
    · rintro (⟨rfl, rfl⟩ | ⟨⟨member, otherLive, rfl⟩, different⟩)
      · exact ⟨Or.inl rfl, entryLive, rfl⟩
      · obtain ⟨p, pInside, rfl⟩ := exists_slot_of_mem ops member
        refine ⟨Or.inr ⟨p, pInside, fun here => different ?_, rfl⟩, otherLive, rfl⟩
        rw [here, sameKey]

/-- A slot that is not live cannot be deleted. -/
theorem delete_of_not_live {position : Nat}
    (dead : ops.status (table.slot ops position) ≠ .live) :
    table.delete ops position = (table, none) := by
  simp [delete, dead]

theorem delete_inv (inv : table.Inv ops) {position : Nat}
    (inside : position < table.numberOfBuckets) :
    (table.delete ops position).1.Inv ops ∧ (table.delete ops position).1.inuse ≤ table.inuse := by
  by_cases live : ops.status (table.slot ops position) = .live
  · obtain ⟨after, deleted, afterInv, -, -, afterInuse, -⟩ := inv.delete_spec inside live
    rw [deleted]
    exact ⟨afterInv, Nat.le.intro afterInuse⟩
  · rw [delete_of_not_live live]
    exact ⟨inv, le_rfl⟩

theorem clear_spec (inv : table.Inv ops) (extra : ε) :
    (table.clear ops extra).Inv ops ∧
      ∀ key entry, ¬ (table.clear ops extra).Holds ops key entry := by
  have cleared := inv.sound.clear extra
  refine ⟨⟨inv.sized, cleared.length_buckets, ?_, ?_, ?_, cleared.distinct,
    cleared.reachable⟩, ?_⟩
  · simp [Table.clear, ops.status_wipe, List.countP_map, Function.comp_def]
  · simp [Table.clear, ops.status_wipe, List.countP_map, Function.comp_def, inv.length_buckets]
  · have positive := inv.prime.pos
    simp only [Table.clear]
    omega
  · rintro key entry ⟨member, live, -⟩
    rw [status_of_mem_clear extra member] at live
    cases live

end Inv

/-! ## Searching and inserting -/

variable [DecidableEq κ]

/-- A search stops at an empty slot and at a slot, live or not, with the key. -/
def stops (table : Table σ ε) (key : κ) (position : Nat) : Bool :=
  decide (ops.status (table.slot ops position) = .empty) ||
    decide (ops.key (table.slot ops position) = key)

/-- Position of the slot of a key, or of the free slot where it belongs.  The loop
of the code has no bound; where none of as many positions as there are slots stops
it, it goes on to slots behind the table, and the result is `none`. -/
def find (table : Table σ ε) (key : κ) : Option Nat :=
  walk table.numberOfBuckets (table.stops ops key) table.numberOfBuckets
    (ops.hash key % table.numberOfBuckets) 0

/-- The insertion proper, after a possible rebuild: `none` inside the result
reports that the key is already live. -/
def place (table : Table σ ε) (entry : σ) : Option (Table σ ε × Option Nat) :=
  match table.find ops (ops.key entry) with
  | none => none
  | some position =>
      match ops.status (table.slot ops position) with
      | .live => some (table, none)
      | .deleted =>
          some ({ table with
            inuse := succ32 table.inuse
            buckets := table.buckets.set position entry }, some position)
      | .empty =>
          some ({ table with
            inuse := succ32 table.inuse
            empty := pred32 table.empty
            buckets := table.buckets.set position entry }, some position)

/-- Insertion over a given way of rebuilding the table. -/
def insertWith (rebuild : Table σ ε → Option (Table σ ε × Bool))
    (table : Table σ ε) (entry : σ) : Option (Table σ ε × Option Nat) :=
  if ops.status entry = .live then
    if pred32 table.empty ≤ table.numberOfBuckets / 2 then
      match rebuild table with
      | none => none
      | some (table, false) => some (table, none)
      | some (table, true) => table.place ops entry
    else table.place ops entry
  else some (table, none)

/-- Insert the live slots of a list one after the other, stopping at the first
one that is refused. -/
def reinsert (insert : Table σ ε → σ → Option (Table σ ε × Option Nat)) :
    List σ → Table σ ε → Option (Table σ ε × Bool)
  | [], table => some (table, true)
  | entry :: rest, table =>
      if ops.status entry = .live then
        match insert table entry with
        | none => none
        | some (table, none) => some (table, false)
        | some (table, some _) => reinsert insert rest table
      else reinsert insert rest table

/-- Rebuild a table from its live entries.  The flag is `false` when an entry
was refused; the old table is then kept. -/
def rehash : Nat → Table σ ε → Option (Table σ ε × Bool)
  | 0, _ => none
  | fuel + 1, table =>
      let fresh := { create ops (toInt32 (toUInt32 (2 * table.inuse))) with
        extra := ops.carry table.extra }
      match reinsert ops (insertWith ops (rehash fuel)) table.buckets fresh with
      | none => none
      | some (table, true) => some (table, true)
      | some (_, false) => some (table, false)

def insert (fuel : Nat) : Table σ ε → σ → Option (Table σ ε × Option Nat) :=
  insertWith ops (rehash ops fuel)

/-- A search has no result just when the positions, followed without a bound, leave the
table and none of those before is one where it may stop. -/
theorem find_eq_none_iff {table : Table σ ε} (positive : 0 < table.numberOfBuckets) (key : κ) :
    table.find ops key = none ↔
      ∃ k < 2 * table.numberOfBuckets + 1, table.numberOfBuckets ≤
          positionAfter table.numberOfBuckets (ops.hash key % table.numberOfBuckets) k ∧
        ∀ i < k,
          positionAfter table.numberOfBuckets (ops.hash key % table.numberOfBuckets) i <
            table.numberOfBuckets ∧
          table.stops ops key (positionAfter table.numberOfBuckets
            (ops.hash key % table.numberOfBuckets) i) = false :=
  walk_eq_none_iff (Nat.mod_lt _ positive)

namespace Sound

variable {ops}
variable {table : Table σ ε}

/-- Where a search ends: at the only slot that may use the key, with no free slot
before it on the probe sequence. -/
theorem find_some (sound : table.Sound ops) {key : κ} {position : Nat}
    (found : table.find ops key = some position) :
    position < table.numberOfBuckets ∧
      (∀ p < table.numberOfBuckets, table.Occupied ops p →
        ops.key (table.slot ops p) = key → p = position) ∧
      (table.Occupied ops position → ops.key (table.slot ops position) = key) ∧
      ∃ k, table.probe ops key k = position ∧
        ∀ i < k, table.Occupied ops (table.probe ops key i) := by
  have start : slotAt table.numberOfBuckets (ops.hash key % table.numberOfBuckets) 0 =
      ops.hash key % table.numberOfBuckets := slotAt_zero (Nat.mod_lt _ sound.positive)
  rw [find, ← start] at found
  obtain ⟨last, rfl, stopped, passes⟩ := of_walk_eq_some table.numberOfBuckets 0 (by omega) found
  have before (i : Nat) (less : i < last) : table.Occupied ops (table.probe ops key i) := by
    have passed := passes i (Nat.zero_le i) less
    simp only [stops, Bool.or_eq_false_iff, decide_eq_false_iff_not] at passed
    exact passed.1
  have keyOf (used : table.Occupied ops (table.probe ops key last)) :
      ops.key (table.slot ops (table.probe ops key last)) = key := by
    simp only [stops, Bool.or_eq_true, decide_eq_true_eq] at stopped
    exact stopped.resolve_left used
  refine ⟨sound.probe_lt key last, ?_, keyOf, last, rfl, before⟩
  intro p inside used sameKey
  obtain ⟨depth, reaches, path⟩ := sound.reachable p inside used
  rw [sameKey] at reaches path
  rcases Nat.lt_trichotomy depth last with early | rfl | late
  · have passed := passes depth (Nat.zero_le depth) early
    have here : slotAt table.numberOfBuckets (ops.hash key % table.numberOfBuckets) depth = p :=
      reaches
    rw [here] at passed
    simp [stops, sameKey] at passed
  · exact reaches.symm
  · have usedHere := path last late
    exact sound.distinct p inside _ (sound.probe_lt key last) used usedHere
      (sameKey.trans (keyOf usedHere).symm)

/-- Inserting a key that is not live adds exactly this binding, if the search for its
place stays in the table. -/
theorem place (sound : table.Sound ops) {entry : σ} (live : ops.status entry = .live)
    (absent : ∀ old, ¬ table.Holds ops (ops.key entry) old) {after : Table σ ε}
    {result : Option Nat} (placed : table.place ops entry = some (after, result)) :
    result ≠ none ∧ after.Sound ops ∧ ∀ key other, after.Holds ops key other ↔
      (other = entry ∧ ops.key entry = key) ∨ table.Holds ops key other := by
  unfold Table.place at placed
  split at placed
  · cases placed
  · rename_i position found
    obtain ⟨inside, unique, keyOf, path⟩ := sound.find_some found
    have dead : ops.status (table.slot ops position) ≠ .live := fun alive =>
      absent _ ⟨slot_mem ops (sound.length_buckets ▸ inside), alive,
        keyOf (occupied_of_live alive)⟩
    have used : ops.status entry ≠ .empty := by rw [live]; nofun
    split at placed
    · exact absurd ‹_› dead
    all_goals
      cases placed
      exact ⟨nofun, sound.replace inside used unique path _ _, sound.holds_set inside dead live⟩

/-- What a rebuild does when it has a result. -/
def Rebuilds (ops : SlotOps σ κ ε) (rebuild : Table σ ε → Option (Table σ ε × Bool)) : Prop :=
  ∀ ⦃table after done⦄, table.Sound ops → rebuild table = some (after, done) →
    done = true ∧ after.Sound ops ∧
      ∀ key entry, after.Holds ops key entry ↔ table.Holds ops key entry

theorem insertWith {rebuild : Table σ ε → Option (Table σ ε × Bool)}
    (rebuilds : Rebuilds ops rebuild) (sound : table.Sound ops) {entry : σ}
    (live : ops.status entry = .live) (absent : ∀ old, ¬ table.Holds ops (ops.key entry) old)
    {after : Table σ ε} {result : Option Nat}
    (inserted : insertWith ops rebuild table entry = some (after, result)) :
    result ≠ none ∧ after.Sound ops ∧ ∀ key other, after.Holds ops key other ↔
      (other = entry ∧ ops.key entry = key) ∨ table.Holds ops key other := by
  unfold Table.insertWith at inserted
  rw [if_pos live] at inserted
  split at inserted
  · split at inserted
    · cases inserted
    · rename_i rebuilt
      cases (rebuilds sound rebuilt).1
    · rename_i middle rebuilt
      obtain ⟨-, middleSound, middleHolds⟩ := rebuilds sound rebuilt
      obtain ⟨placed, afterSound, afterHolds⟩ := middleSound.place live
        (fun old holds => absent old ((middleHolds _ _).mp holds)) inserted
      refine ⟨placed, afterSound, fun key other => ?_⟩
      rw [afterHolds, middleHolds]
  · exact sound.place live absent inserted

omit [DecidableEq κ] in
/-- Inserting live slots with new, distinct keys one after the other, if it has a result. -/
theorem reinsert {insert : Table σ ε → σ → Option (Table σ ε × Option Nat)}
    (inserts : ∀ {table after : Table σ ε} {entry : σ} {result : Option Nat}, table.Sound ops →
      ops.status entry = .live → (∀ old, ¬ table.Holds ops (ops.key entry) old) →
      insert table entry = some (after, result) → result ≠ none ∧ after.Sound ops ∧
        ∀ key other, after.Holds ops key other ↔
          (other = entry ∧ ops.key entry = key) ∨ table.Holds ops key other)
    {slots : List σ} (sound : table.Sound ops)
    (pairwise : slots.Pairwise fun a b => ops.status a = .live → ops.status b = .live →
      ops.key a ≠ ops.key b)
    (fresh : ∀ s ∈ slots, ops.status s = .live → ∀ old, ¬ table.Holds ops (ops.key s) old)
    {after : Table σ ε} {done : Bool}
    (reinserted : reinsert ops insert slots table = some (after, done)) :
    done = true ∧ after.Sound ops ∧ ∀ key entry, after.Holds ops key entry ↔
      (entry ∈ slots ∧ ops.status entry = .live ∧ ops.key entry = key) ∨
        table.Holds ops key entry := by
  induction slots generalizing table with
  | nil =>
      cases reinserted
      exact ⟨rfl, sound, by simp⟩
  | cons entry rest ih =>
      obtain ⟨apart, restPairwise⟩ := List.pairwise_cons.mp pairwise
      have freshRest := fun s member => fresh s (List.mem_cons_of_mem _ member)
      simp only [Table.reinsert] at reinserted
      by_cases live : ops.status entry = .live
      · rw [if_pos live] at reinserted
        split at reinserted
        · cases reinserted
        · rename_i inserted
          exact absurd rfl (inserts sound live (fresh entry (by simp) live) inserted).1
        · rename_i next position inserted
          obtain ⟨-, nextSound, nextHolds⟩ :=
            inserts sound live (fresh entry (by simp) live) inserted
          obtain ⟨finished, afterSound, afterHolds⟩ := ih nextSound restPairwise (by
            intro s member sLive old holds
            rcases (nextHolds _ _).mp holds with ⟨-, sameKey⟩ | before
            · exact apart s member live sLive sameKey
            · exact freshRest s member sLive old before) reinserted
          refine ⟨finished, afterSound, fun key other => ?_⟩
          rw [afterHolds, nextHolds, List.mem_cons]
          constructor
          · rintro (⟨member, facts⟩ | ⟨rfl, keyEq⟩ | before)
            · exact Or.inl ⟨Or.inr member, facts⟩
            · exact Or.inl ⟨Or.inl rfl, live, keyEq⟩
            · exact Or.inr before
          · rintro (⟨rfl | member, facts⟩ | before)
            · exact Or.inr (Or.inl ⟨rfl, facts.2⟩)
            · exact Or.inl ⟨member, facts⟩
            · exact Or.inr (Or.inr before)
      · rw [if_neg live] at reinserted
        obtain ⟨finished, afterSound, afterHolds⟩ := ih sound restPairwise freshRest reinserted
        refine ⟨finished, afterSound, fun key other => ?_⟩
        rw [afterHolds, List.mem_cons]
        constructor
        · rintro (⟨member, facts⟩ | before)
          · exact Or.inl ⟨Or.inr member, facts⟩
          · exact Or.inr before
        · rintro (⟨rfl | member, facts⟩ | before)
          · exact absurd facts.1 live
          · exact Or.inl ⟨member, facts⟩
          · exact Or.inr before

theorem rebuilds_rehash (fuel : Nat) : Rebuilds ops (rehash ops fuel) := by
  induction fuel with
  | zero =>
      intro table after done _ rebuilt
      cases rebuilt
  | succ fuel ih =>
      intro table after done sound rebuilt
      simp only [rehash] at rebuilt
      generalize toInt32 (toUInt32 (2 * table.inuse)) = capacity at rebuilt
      obtain ⟨created, none⟩ := create_inv ops capacity (ops.carry table.extra)
      have refill {refilled : Table σ ε} {finished : Bool} (reinserted : Table.reinsert ops
          (Table.insertWith ops (rehash ops fuel)) table.buckets
          { create ops capacity with extra := ops.carry table.extra } =
            some (refilled, finished)) :=
        created.sound.reinsert (fun sound live absent inserted =>
          Sound.insertWith ih sound live absent inserted) sound.pairwise_live
          (fun s _ _ old => none (ops.key s) old) reinserted
      split at rebuilt
      · cases rebuilt
      · rename_i refilled reinserted
        cases rebuilt
        obtain ⟨-, afterSound, afterHolds⟩ := refill reinserted
        refine ⟨rfl, afterSound, fun key entry => ?_⟩
        rw [afterHolds]
        exact or_iff_left (none key entry)
      · rename_i reinserted
        cases (refill reinserted).1

/-- An insertion of a key that is not live is never refused: it adds exactly this binding,
if it has a result. -/
theorem insert (sound : table.Sound ops) {fuel : Nat} {entry : σ}
    (live : ops.status entry = .live) (absent : ∀ old, ¬ table.Holds ops (ops.key entry) old)
    {after : Table σ ε} {result : Option Nat}
    (inserted : insert ops fuel table entry = some (after, result)) :
    result ≠ none ∧ after.Sound ops ∧ ∀ key other, after.Holds ops key other ↔
      (other = entry ∧ ops.key entry = key) ∨ table.Holds ops key other :=
  Sound.insertWith (rebuilds_rehash fuel) sound live absent inserted

end Sound

namespace Inv

variable {ops}
variable {table : Table σ ε}

/-- A search ends within the first half of the probe sequence, at the first
position where it may stop. -/
theorem find_spec (inv : table.Inv ops) (key : κ) :
    ∃ k < (table.numberOfBuckets + 1) / 2,
      table.find ops key = some (table.probe ops key k) ∧
      table.stops ops key (table.probe ops key k) = true ∧
      ∀ i < k, table.stops ops key (table.probe ops key i) = false := by
  have eventually : ∃ k, table.stops ops key (table.probe ops key k) = true := by
    obtain ⟨k, -, free⟩ := inv.exists_free key
    exact ⟨k, by simpa [stops, Occupied] using Or.inl (not_not.mp free)⟩
  obtain ⟨free, freeBound, isFree⟩ := inv.exists_free key
  have first := Nat.find_spec eventually
  have bound : Nat.find eventually ≤ free :=
    Nat.find_min' eventually (by simpa [stops, Occupied] using Or.inl (not_not.mp isFree))
  have before : ∀ i < Nat.find eventually,
      table.stops ops key (table.probe ops key i) = false := fun i less => by
    simpa using Nat.find_min eventually less
  refine ⟨Nat.find eventually, by omega, ?_, first, before⟩
  have start : slotAt table.numberOfBuckets (ops.hash key % table.numberOfBuckets) 0 =
      ops.hash key % table.numberOfBuckets := slotAt_zero (Nat.mod_lt _ inv.prime.pos)
  have found := walk_eq_some first table.numberOfBuckets 0 (by omega) (by omega) (by omega)
    fun i _ less => before i less
  rw [start] at found
  exact found

/-- Where a search ends: the only slot that may use the key, with no free slot
before it on the probe sequence. -/
theorem find_place (inv : table.Inv ops) (key : κ) :
    ∃ position < table.numberOfBuckets, table.find ops key = some position ∧
      (∀ p < table.numberOfBuckets, table.Occupied ops p →
        ops.key (table.slot ops p) = key → p = position) ∧
      (table.Occupied ops position → ops.key (table.slot ops position) = key) ∧
      ∃ k, table.probe ops key k = position ∧
        ∀ i < k, table.Occupied ops (table.probe ops key i) := by
  obtain ⟨k, -, found, -⟩ := inv.find_spec key
  obtain ⟨inside, facts⟩ := inv.sound.find_some found
  exact ⟨_, inside, found, facts⟩

/-- Searching for the key of a used slot finds that slot. -/
theorem find_occupied (inv : table.Inv ops) {position : Nat}
    (inside : position < table.numberOfBuckets) (used : table.Occupied ops position) :
    table.find ops (ops.key (table.slot ops position)) = some position := by
  obtain ⟨place, -, found, unique, -⟩ := inv.find_place (ops.key (table.slot ops position))
  rw [found, unique position inside used rfl]

/-- Searching for a live key finds its entry. -/
theorem find_holds (inv : table.Inv ops) {key : κ} {entry : σ}
    (holds : table.Holds ops key entry) :
    ∃ position < table.numberOfBuckets, table.find ops key = some position ∧
      table.slot ops position = entry := by
  obtain ⟨member, live, rfl⟩ := holds
  obtain ⟨position, inside, rfl⟩ := exists_slot_of_mem ops member
  rw [inv.length_buckets] at inside
  exact ⟨position, inside, inv.find_occupied inside (occupied_of_live live), rfl⟩

/-- Searching for a key that is not live ends at a slot that is not live. -/
theorem find_absent (inv : table.Inv ops) {key : κ}
    (absent : ∀ entry, ¬ table.Holds ops key entry) :
    ∃ position < table.numberOfBuckets, table.find ops key = some position ∧
      ops.status (table.slot ops position) ≠ .live := by
  obtain ⟨position, inside, found, -, keyOf, -⟩ := inv.find_place key
  refine ⟨position, inside, found, fun live => absent (table.slot ops position) ?_⟩
  exact ⟨slot_mem ops (inv.length_buckets ▸ inside), live, keyOf (occupied_of_live live)⟩

/-- Inserting a key that is already live is refused. -/
theorem place_of_holds (inv : table.Inv ops) {entry old : σ}
    (holds : table.Holds ops (ops.key entry) old) :
    table.place ops entry = some (table, none) := by
  obtain ⟨member, live, sameKey⟩ := holds
  obtain ⟨p, pInside, rfl⟩ := exists_slot_of_mem ops member
  rw [inv.length_buckets] at pInside
  have found := inv.find_occupied pInside (occupied_of_live live)
  rw [sameKey] at found
  simp [place, found, live]

/-- Inserting a key that is not live adds exactly this binding. -/
theorem place_spec (inv : table.Inv ops) {entry : σ} (live : ops.status entry = .live)
    (absent : ∀ old, ¬ table.Holds ops (ops.key entry) old)
    (ample : table.numberOfBuckets / 2 + 1 < table.empty) :
    ∃ after position, table.place ops entry = some (after, some position) ∧
      after.Inv ops ∧ after.numberOfBuckets = table.numberOfBuckets ∧
      after.extra = table.extra ∧ after.inuse = table.inuse + 1 ∧
      table.empty ≤ after.empty + 1 ∧
      ∀ key other, after.Holds ops key other ↔
        (other = entry ∧ ops.key entry = key) ∨ table.Holds ops key other := by
  obtain ⟨position, inside, found, unique, keyOf, path⟩ := inv.find_place (ops.key entry)
  have listInside : position < table.buckets.length := inv.length_buckets ▸ inside
  have current : table.buckets[position] = table.slot ops position :=
    (slot_eq_getElem ops listInside).symm
  have dead : ops.status (table.slot ops position) ≠ .live := fun alive =>
    absent _ ⟨slot_mem ops listInside, alive, keyOf (occupied_of_live alive)⟩
  have small := inv.inuse_lt
  have sizeBound := inv.size_lt
  have increased : succ32 table.inuse = table.inuse + 1 := succ32_eq (by omega)
  have decreased : pred32 table.empty = table.empty - 1 := pred32_eq (by omega) (by omega)
  have liveCount : succ32 table.inuse = (table.buckets.set position entry).countP
      fun s => decide (ops.status s = .live) := by
    rw [List.countP_set listInside, increased, inv.inuse_eq]
    simp [current, dead, live]
  have bindings := inv.sound.holds_set inside dead live
  unfold place
  cases now : ops.status (table.slot ops position) with
  | live => exact absurd now dead
  | deleted =>
      have emptyCount : table.empty = (table.buckets.set position entry).countP
          fun s => decide (ops.status s = .empty) := by
        rw [List.countP_set listInside, inv.empty_eq]
        simp [current, now, live]
      exact ⟨_, position, by simp only [found, now],
        inv.replace inside (by simp [live]) unique path liveCount
        emptyCount inv.half_empty, rfl, rfl, increased, by simp, bindings⟩
  | empty =>
      have emptyCount : pred32 table.empty = (table.buckets.set position entry).countP
          fun s => decide (ops.status s = .empty) := by
        rw [List.countP_set listInside, decreased, inv.empty_eq]
        simp [current, now, live]
      exact ⟨_, position, by simp only [found, now],
        inv.replace inside (by simp [live]) unique path liveCount
        emptyCount (by omega), rfl, rfl, increased, by simp only [decreased]; omega, bindings⟩

/-- The rebuilding loop: inserting live slots with new, distinct keys into a
table without tombstones that has room for all of them never rebuilds again. -/
theorem reinsert_spec (rebuild : Table σ ε → Option (Table σ ε × Bool)) :
    ∀ (slots : List σ) (table : Table σ ε), table.Inv ops →
      table.empty + table.inuse = table.numberOfBuckets →
      (slots.countP fun s => decide (ops.status s = .live)) + table.inuse ≤
        table.numberOfBuckets / 2 →
      (slots.Pairwise fun a b => ops.status a = .live → ops.status b = .live →
        ops.key a ≠ ops.key b) →
      (∀ s ∈ slots, ops.status s = .live → ∀ old, ¬ table.Holds ops (ops.key s) old) →
      ∃ after, reinsert ops (insertWith ops rebuild) slots table = some (after, true) ∧
        after.Inv ops ∧ after.numberOfBuckets = table.numberOfBuckets ∧
        after.extra = table.extra ∧
        after.inuse = (slots.countP fun s => decide (ops.status s = .live)) + table.inuse ∧
        after.empty + after.inuse = after.numberOfBuckets ∧
        ∀ key entry, after.Holds ops key entry ↔
          (entry ∈ slots ∧ ops.status entry = .live ∧ ops.key entry = key) ∨
            table.Holds ops key entry := by
  intro slots
  induction slots with
  | nil =>
      intro table inv exact_ _ _ _
      exact ⟨table, rfl, inv, rfl, rfl, by simp, exact_, by simp⟩
  | cons entry rest ih =>
      intro table inv noTombstone fit pairwise fresh
      obtain ⟨apart, restPairwise⟩ := List.pairwise_cons.mp pairwise
      by_cases live : ops.status entry = .live
      · have countCons : ((entry :: rest).countP fun s => decide (ops.status s = .live)) =
            (rest.countP fun s => decide (ops.status s = .live)) + 1 := by
          simp [live]
        rw [countCons] at fit
        have odd := inv.odd
        have sizeBound := inv.size_lt
        have emptyBound := inv.empty_le
        have ample : table.numberOfBuckets / 2 + 1 < table.empty := by omega
        have roomy : ¬ pred32 table.empty ≤ table.numberOfBuckets / 2 := by
          rw [pred32_eq (by omega) (by omega)]
          omega
        obtain ⟨next, position, placed, nextInv, nextSize, nextExtra, nextInuse, nextEmpty,
          nextHolds⟩ := inv.place_spec live (fresh entry (by simp) live) ample
        have nextTotal := nextInv.inuse_lt
        obtain ⟨after, inserted, afterInv, afterSize, afterExtra, afterInuse, afterTotal,
            afterHolds⟩ := ih next nextInv (by omega) (by omega) restPairwise (by
          intro s member sLive old holds
          rcases (nextHolds _ _).mp holds with ⟨-, sameKey⟩ | before
          · exact apart s member live sLive sameKey
          · exact fresh s (List.mem_cons_of_mem _ member) sLive old before)
        have stepEq : insertWith ops rebuild table entry = some (next, some position) := by
          simp [insertWith, live, roomy, placed]
        refine ⟨after, by simp [reinsert, live, stepEq, inserted], afterInv,
          afterSize.trans nextSize, afterExtra.trans nextExtra, by omega, afterTotal, ?_⟩
        intro key other
        rw [afterHolds, nextHolds, List.mem_cons]
        constructor
        · rintro (⟨member, facts⟩ | ⟨rfl, keyEq⟩ | before)
          · exact Or.inl ⟨Or.inr member, facts⟩
          · exact Or.inl ⟨Or.inl rfl, live, keyEq⟩
          · exact Or.inr before
        · rintro (⟨rfl | member, facts⟩ | before)
          · exact Or.inr (Or.inl ⟨rfl, facts.2⟩)
          · exact Or.inl ⟨member, facts⟩
          · exact Or.inr (Or.inr before)
      · have countCons : ((entry :: rest).countP fun s => decide (ops.status s = .live)) =
            (rest.countP fun s => decide (ops.status s = .live)) := by
          simp [live]
        rw [countCons] at fit ⊢
        obtain ⟨after, inserted, afterInv, afterSize, afterExtra, afterInuse, afterTotal,
            afterHolds⟩ := ih table inv noTombstone fit restPairwise
          fun s member => fresh s (List.mem_cons_of_mem _ member)
        refine ⟨after, by simp [reinsert, live, inserted], afterInv, afterSize, afterExtra,
          afterInuse, afterTotal, ?_⟩
        intro key other
        rw [afterHolds, List.mem_cons]
        constructor
        · rintro (⟨member, facts⟩ | before)
          · exact Or.inl ⟨Or.inr member, facts⟩
          · exact Or.inr before
        · rintro (⟨rfl | member, facts⟩ | before)
          · exact absurd facts.1 live
          · exact Or.inl ⟨member, facts⟩
          · exact Or.inr before

omit [DecidableEq κ] in
/-- The capacity for which a table is rebuilt. -/
theorem toInt32_double {entries : Nat} (bounded : entries ≤ ops.limit) :
    toInt32 (toUInt32 (2 * entries)) = 2 * entries := by
  have limitBound := ops.limit_lt
  rw [toUInt32_eq (by omega), toInt32_eq (by omega) (by omega)]
  simp

/-- The insertions of a rebuild succeed, whatever the way of rebuilding further. -/
theorem reinsert_live (inv : table.Inv ops) (bounded : table.inuse ≤ ops.limit)
    (rebuild : Table σ ε → Option (Table σ ε × Bool)) :
    ∃ after, reinsert ops (insertWith ops rebuild) table.buckets
        { create ops (toInt32 (toUInt32 (2 * table.inuse))) with
          extra := ops.carry table.extra } = some (after, true) ∧ after.Inv ops ∧
      after.numberOfBuckets = ops.sizeFor (2 * table.inuse) ∧
      after.extra = ops.carry table.extra ∧ after.inuse = table.inuse ∧
      after.empty + after.inuse = after.numberOfBuckets ∧
      ∀ key entry, after.Holds ops key entry ↔ table.Holds ops key entry := by
  have created := create_inv ops (2 * table.inuse) (ops.carry table.extra)
  obtain ⟨after, inserted, afterInv, afterSize, afterExtra, afterInuse, afterTotal,
      afterHolds⟩ := reinsert_spec rebuild table.buckets
    { create ops (2 * table.inuse) with extra := ops.carry table.extra } created.1
    (by simp [create])
    (by
      rw [← inv.inuse_eq]
      simpa [create] using ops.fits table.inuse bounded)
    inv.sound.pairwise_live (fun s _ _ old => created.2 (ops.key s) old)
  refine ⟨after, ?_, afterInv, afterSize, afterExtra, ?_, afterTotal, ?_⟩
  · rw [toInt32_double bounded]
    exact inserted
  · rw [afterInuse, ← inv.inuse_eq]
    simp [create]
  · intro key entry
    rw [afterHolds]
    exact or_iff_left (created.2 key entry)

/-- Rebuilding keeps exactly the live entries, drops every tombstone and leaves
the size that the number of entries asks for. -/
theorem rehash_spec (inv : table.Inv ops) (bounded : table.inuse ≤ ops.limit) (fuel : Nat) :
    ∃ after, rehash ops (fuel + 1) table = some (after, true) ∧ after.Inv ops ∧
      after.numberOfBuckets = ops.sizeFor (2 * table.inuse) ∧
      after.extra = ops.carry table.extra ∧ after.inuse = table.inuse ∧
      after.empty + after.inuse = after.numberOfBuckets ∧
      ∀ key entry, after.Holds ops key entry ↔ table.Holds ops key entry := by
  obtain ⟨after, inserted, facts⟩ := inv.reinsert_live bounded (rehash ops fuel)
  refine ⟨after, ?_, facts⟩
  rw [rehash]
  simp only [inserted]

omit [DecidableEq κ] in
/-- A rebuilt table has no tombstone. -/
theorem ne_deleted (inv : table.Inv ops)
    (noTombstone : table.empty + table.inuse = table.numberOfBuckets) {entry : σ}
    (member : entry ∈ table.buckets) : ops.status entry ≠ .deleted := by
  obtain ⟨position, inside, rfl⟩ := exists_slot_of_mem ops member
  rw [inv.length_buckets] at inside
  intro deleted
  have used : table.Occupied ops position := by simp [Occupied, deleted]
  rw [inv.live_of_occupied noTombstone inside used] at deleted
  cases deleted

/-- A short supply of free slots makes an insertion rebuild the table first. -/
theorem insert_of_crowded (inv : table.Inv ops) (bounded : table.inuse ≤ ops.limit)
    (crowded : pred32 table.empty ≤ table.numberOfBuckets / 2) (fuel : Nat)
    {entry : σ} (live : ops.status entry = .live) :
    ∃ middle : Table σ ε, insert ops (fuel + 1) table entry = middle.place ops entry ∧
      middle.Inv ops ∧ middle.numberOfBuckets = ops.sizeFor (2 * table.inuse) ∧
      middle.extra = ops.carry table.extra ∧ middle.inuse = table.inuse ∧
      middle.empty + middle.inuse = middle.numberOfBuckets ∧
      ∀ key other, middle.Holds ops key other ↔ table.Holds ops key other := by
  obtain ⟨middle, rebuilt, facts⟩ := inv.rehash_spec bounded fuel
  refine ⟨middle, ?_, facts⟩
  simp [insert, insertWith, live, crowded, rebuilt]

/-- The table on which an insertion works, after the rebuild that a short
supply of free slots asks for. -/
theorem insert_cases (inv : table.Inv ops) (bounded : table.inuse < ops.limit) (fuel : Nat)
    {entry : σ} (live : ops.status entry = .live) :
    ∃ middle, insert ops (fuel + 1) table entry = middle.place ops entry ∧
      middle.Inv ops ∧ middle.inuse = table.inuse ∧
      middle.numberOfBuckets / 2 + 1 < middle.empty ∧
      (middle = table ∨ middle.extra = ops.carry table.extra) ∧
      ∀ key other, middle.Holds ops key other ↔ table.Holds ops key other := by
  have odd := inv.odd
  have sizeBound := inv.size_lt
  have emptyBound := inv.empty_le
  have half := inv.half_empty
  have decreased : pred32 table.empty = table.empty - 1 := pred32_eq (by omega) (by omega)
  by_cases crowded : pred32 table.empty ≤ table.numberOfBuckets / 2
  · obtain ⟨middle, inserted, middleInv, middleSize, middleExtra, middleInuse, middleTotal,
      middleHolds⟩ := inv.insert_of_crowded bounded.le crowded fuel live
    have room := ops.room table.inuse bounded
    have middleOdd := middleInv.odd
    refine ⟨middle, inserted, middleInv, middleInuse, ?_, Or.inr middleExtra, middleHolds⟩
    rw [← middleSize] at room
    omega
  · refine ⟨table, ?_, inv, rfl, by omega, Or.inl rfl, fun _ _ => Iff.rfl⟩
    simp [insert, insertWith, live, crowded]

/-- Inserting a key that is not live adds exactly this binding. -/
theorem insert_spec (inv : table.Inv ops) (bounded : table.inuse < ops.limit) (fuel : Nat)
    {entry : σ} (live : ops.status entry = .live)
    (absent : ∀ old, ¬ table.Holds ops (ops.key entry) old) :
    ∃ after position, insert ops (fuel + 1) table entry = some (after, some position) ∧
      after.Inv ops ∧ after.inuse = table.inuse + 1 ∧
      (after.extra = table.extra ∨ after.extra = ops.carry table.extra) ∧
      ∀ key other, after.Holds ops key other ↔
        (other = entry ∧ ops.key entry = key) ∨ table.Holds ops key other := by
  obtain ⟨middle, inserted, middleInv, middleInuse, ample, middleExtra, middleHolds⟩ :=
    inv.insert_cases bounded fuel live
  obtain ⟨after, position, placed, afterInv, -, afterExtra, afterInuse, -, afterHolds⟩ :=
    middleInv.place_spec live (fun old holds => absent old ((middleHolds _ _).mp holds)) ample
  refine ⟨after, position, inserted.trans placed, afterInv, by omega, ?_, ?_⟩
  · rw [afterExtra]
    rcases middleExtra with rfl | carried
    · exact Or.inl rfl
    · exact Or.inr carried
  · intro key other
    rw [afterHolds, middleHolds]

/-- Inserting a key that is live is refused, possibly after a rebuild. -/
theorem insert_of_holds (inv : table.Inv ops) (bounded : table.inuse < ops.limit) (fuel : Nat)
    {entry old : σ} (live : ops.status entry = .live)
    (holds : table.Holds ops (ops.key entry) old) :
    ∃ after, insert ops (fuel + 1) table entry = some (after, none) ∧ after.Inv ops ∧
      after.inuse = table.inuse ∧
      (after.extra = table.extra ∨ after.extra = ops.carry table.extra) ∧
      ∀ key other, after.Holds ops key other ↔ table.Holds ops key other := by
  obtain ⟨middle, inserted, middleInv, middleInuse, -, middleExtra, middleHolds⟩ :=
    inv.insert_cases bounded fuel live
  have refused := middleInv.place_of_holds ((middleHolds _ _).mpr holds)
  refine ⟨middle, inserted.trans refused, middleInv, middleInuse, ?_, middleHolds⟩
  rcases middleExtra with rfl | carried
  · exact Or.inl rfl
  · exact Or.inr carried

/-- Whatever is inserted, the invariant is kept. -/
theorem insert_inv (inv : table.Inv ops) (bounded : table.inuse < ops.limit) (fuel : Nat)
    (entry : σ) :
    ∃ after position, insert ops (fuel + 1) table entry = some (after, position) ∧
      after.Inv ops ∧ after.inuse ≤ table.inuse + 1 := by
  by_cases live : ops.status entry = .live
  · by_cases present : ∃ old, table.Holds ops (ops.key entry) old
    · obtain ⟨old, holds⟩ := present
      obtain ⟨after, inserted, afterInv, afterInuse, -, -⟩ :=
        inv.insert_of_holds bounded fuel live holds
      exact ⟨after, none, inserted, afterInv, by omega⟩
    · obtain ⟨after, position, inserted, afterInv, afterInuse, -, -⟩ :=
        inv.insert_spec bounded fuel live fun old holds => present ⟨old, holds⟩
      exact ⟨after, some position, inserted, afterInv, by omega⟩
  · exact ⟨table, none, by simp [insert, insertWith, live], inv, by omega⟩

/-- When the keys of a table all have one probe sequence and one slot more than half
is free, another such key takes the last free slot of that sequence: a search for a
third one leaves the table. -/
theorem place_exhausts (inv : table.Inv ops) {start : Nat}
    (last : table.empty = table.numberOfBuckets / 2 + 1)
    (collide : ∀ p < table.numberOfBuckets, table.Occupied ops p →
      ops.hash (ops.key (table.slot ops p)) % table.numberOfBuckets = start)
    {entry : σ} (live : ops.status entry = .live)
    (entryCollides : ops.hash (ops.key entry) % table.numberOfBuckets = start)
    (entryUnused : ∀ p < table.numberOfBuckets, table.Occupied ops p →
      ops.key (table.slot ops p) ≠ ops.key entry) {key : κ}
    (keyCollides : ops.hash key % table.numberOfBuckets = start)
    (keyUnused : ∀ p < table.numberOfBuckets, table.Occupied ops p →
      ops.key (table.slot ops p) ≠ key) (different : ops.key entry ≠ key) :
    ∃ after position, table.place ops entry = some (after, some position) ∧
      after.find ops key = none := by
  obtain ⟨position, inside, found, -, keyOf, k, probed, -⟩ := inv.find_place (ops.key entry)
  have free : ¬ table.Occupied ops position := fun used =>
    entryUnused position inside used (keyOf used)
  have vacant : ops.status (table.slot ops position) = .empty := not_not.mp free
  have listInside : position < table.buckets.length := inv.length_buckets ▸ inside
  have odd := inv.odd
  have positive := inv.prime.pos
  have startInside : start < table.numberOfBuckets := keyCollides ▸ Nat.mod_lt _ positive
  refine ⟨{ table with
    inuse := succ32 table.inuse
    empty := pred32 table.empty
    buckets := table.buckets.set position entry }, position, by simp only [place, found, vacant],
    ?_⟩
  -- The used slots and the new one are as many as the probe sequence has positions.
  have sequenceCard : ((Finset.range ((table.numberOfBuckets + 1) / 2)).image
      (slotAt table.numberOfBuckets start)).card = (table.numberOfBuckets + 1) / 2 := by
    rw [Finset.card_image_of_injOn (by simpa using slotAt_injOn inv.prime start),
      Finset.card_range]
  have onSequence (i : Nat) : slotAt table.numberOfBuckets start i ∈
      (Finset.range ((table.numberOfBuckets + 1) / 2)).image
        (slotAt table.numberOfBuckets start) := by
    obtain ⟨j, bound, same⟩ := exists_slotAt_half odd start i
    exact Finset.mem_image.mpr ⟨j, Finset.mem_range.mpr bound, same⟩
  have covered : Insert.insert position ((Finset.range table.numberOfBuckets).filter fun p =>
      decide (table.Occupied ops p)) =
      (Finset.range ((table.numberOfBuckets + 1) / 2)).image
        (slotAt table.numberOfBuckets start) := by
    apply Finset.eq_of_subset_of_card_le
    · intro p member
      rcases Finset.mem_insert.mp member with rfl | used
      · rw [← probed, probe, entryCollides]
        exact onSequence k
      · obtain ⟨pInside, pUsed⟩ := Finset.mem_filter.mp used
        obtain ⟨i, reaches, -⟩ := inv.reachable p (Finset.mem_range.mp pInside)
          (of_decide_eq_true pUsed)
        rw [probe, collide p (Finset.mem_range.mp pInside) (of_decide_eq_true pUsed)] at reaches
        exact reaches ▸ onSequence i
    · have total := inv.card_occupied
      rw [sequenceCard, Finset.card_insert_of_notMem (by simp [free])]
      omega
  have passes (i : Nat) : stops ops { table with
      inuse := succ32 table.inuse
      empty := pred32 table.empty
      buckets := table.buckets.set position entry } key
      (slotAt table.numberOfBuckets start i) = false := by
    have member := onSequence i
    rw [← covered, Finset.mem_insert] at member
    simp only [stops, slot, getD_set_of_lt _ listInside]
    rcases member with here | used
    · rw [if_pos here]
      simp [live, different]
    · obtain ⟨pInside, pUsed⟩ := Finset.mem_filter.mp used
      have stillUsed := of_decide_eq_true pUsed
      have elsewhere : slotAt table.numberOfBuckets start i ≠ position := fun here =>
        free (here ▸ stillUsed)
      rw [if_neg elsewhere]
      have keyDiffers := keyUnused _ (Finset.mem_range.mp pInside) stillUsed
      simp only [Bool.or_eq_false_iff, decide_eq_false_iff_not]
      exact ⟨stillUsed, keyDiffers⟩
  have begins : slotAt table.numberOfBuckets start 0 = start := slotAt_zero startInside
  have leaves := walk_eq_none table.numberOfBuckets 0 (by omega) fun i _ _ => passes i
  rw [begins] at leaves
  simp only [find, keyCollides]
  exact leaves

omit [DecidableEq κ] in
/-- The largest table, filled as far as it goes. -/
theorem size_of_full (inv : table.Inv ops)
    (largest : ∀ capacity, ops.sizeFor capacity ≤ 2 * ops.limit + 1)
    (full : table.inuse = ops.limit) :
    table.numberOfBuckets = 2 * ops.limit + 1 ∧ table.empty = ops.limit + 1 := by
  obtain ⟨capacity, sized⟩ := inv.sized
  have bound := largest capacity
  rw [← sized] at bound
  have total := inv.inuse_lt
  have half := inv.half_empty
  have odd := inv.odd
  omega

/-- In the largest table, full of keys with one probe sequence, another such key is still
inserted; a search for a third one leaves the table. -/
theorem insert_exhausts (inv : table.Inv ops)
    (largest : ∀ capacity, ops.sizeFor capacity ≤ 2 * ops.limit + 1)
    (full : table.inuse = ops.limit) (fuel : Nat) {keys : List κ}
    (among : table.KeysAmong ops keys) {entry : σ} (live : ops.status entry = .live) {key : κ}
    {start : Nat} (fresh : (key :: ops.key entry :: keys).Nodup)
    (collide : ∀ other ∈ key :: ops.key entry :: keys,
      ops.hash other % (2 * ops.limit + 1) = start) :
    ∃ after position, insert ops (fuel + 1) table entry = some (after, some position) ∧
      after.find ops key = none := by
  obtain ⟨keyNew, entryFresh⟩ := List.nodup_cons.mp fresh
  obtain ⟨entryNew, -⟩ := List.nodup_cons.mp entryFresh
  obtain ⟨size, empty⟩ := inv.size_of_full largest full
  have small := ops.limit_lt
  have crowded : pred32 table.empty ≤ table.numberOfBuckets / 2 := by
    rw [size, empty, pred32_eq (by omega) (by omega)]
    omega
  obtain ⟨middle, inserted, middleInv, -, -, middleInuse, middleTotal, middleHolds⟩ :=
    inv.insert_of_crowded full.le crowded fuel live
  obtain ⟨middleSize, middleEmpty⟩ :=
    middleInv.size_of_full largest (middleInuse.trans full)
  have used (p : Nat) (inside : p < middle.numberOfBuckets) (occupied : middle.Occupied ops p) :
      ops.key (middle.slot ops p) ∈ keys :=
    among _ _ ((middleHolds _ _).mp ⟨slot_mem ops (middleInv.length_buckets ▸ inside),
      middleInv.live_of_occupied middleTotal inside occupied, rfl⟩)
  have unused {other : κ} (new : other ∉ keys) (p : Nat) (inside : p < middle.numberOfBuckets)
      (occupied : middle.Occupied ops p) : ops.key (middle.slot ops p) ≠ other :=
    fun same => new (same ▸ used p inside occupied)
  rw [← middleSize] at collide
  obtain ⟨after, position, placed, leaves⟩ := middleInv.place_exhausts
    (by rw [middleSize, middleEmpty]; omega)
    (fun p inside occupied =>
      collide _ (List.mem_cons_of_mem _ (List.mem_cons_of_mem _ (used p inside occupied))))
    live (collide _ (List.mem_cons_of_mem _ List.mem_cons_self)) (unused entryNew)
    (collide _ List.mem_cons_self) (unused fun member => keyNew (List.mem_cons_of_mem _ member))
    fun same => keyNew (same ▸ List.mem_cons_self)
  exact ⟨after, position, inserted.trans placed, leaves⟩

end Inv

/-! ## Tables of any shape

These facts do not rest on the invariant. -/

section Stems

variable {ops}
variable {table after : Table σ ε}

/-- A search only depends on the status and the key of the slots. -/
theorem find_similar (size_eq : after.numberOfBuckets = table.numberOfBuckets)
    (similar : List.Forall₂ (fun old new => ops.status new = ops.status old ∧
      ops.key new = ops.key old) table.buckets after.buckets) (key : κ) :
    after.find ops key = table.find ops key := by
  have sameStops : after.stops ops key = table.stops ops key := by
    funext position
    simp [stops, slot_similar similar position]
  rw [find, find, size_eq, sameStops]

/-- An insertion with a result where a rebuild has none has not rebuilt the table. -/
theorem insertWith_of_none {entry : σ} {result : Table σ ε × Option Nat}
    (inserted : insertWith ops (fun _ => none) table entry = some result)
    (rebuild : Table σ ε → Option (Table σ ε × Bool)) :
    insertWith ops rebuild table entry = some result := by
  simp only [insertWith] at inserted ⊢
  split at inserted
  · rename_i live
    rw [if_pos live]
    split at inserted
    · cases inserted
    · rename_i roomy
      rw [if_neg roomy]
      exact inserted
  · rename_i dead
    rw [if_neg dead]
    exact inserted

theorem reinsert_of_none {slots : List σ} {result : Table σ ε × Bool}
    (inserted : reinsert ops (insertWith ops fun _ => none) slots table = some result)
    (rebuild : Table σ ε → Option (Table σ ε × Bool)) :
    reinsert ops (insertWith ops rebuild) slots table = some result := by
  induction slots generalizing table with
  | nil =>
      cases inserted
      rfl
  | cons entry rest ih =>
      simp only [reinsert] at inserted ⊢
      split at inserted
      · rename_i live
        rw [if_pos live]
        split at inserted
        · cases inserted
        · rename_i first
          rw [insertWith_of_none first rebuild]
          exact inserted
        · rename_i first
          rw [insertWith_of_none first rebuild]
          exact ih inserted
      · rename_i dead
        rw [if_neg dead]
        exact ih inserted

variable (ops) in
/-- The slots of a table come from another table or are new, and what it carries
beside them has at most been carried over. -/
structure StemsFrom (table after : Table σ ε) (added : σ → Prop) : Prop where
  extra : ∃ times, after.extra = ops.carry^[times] table.extra
  buckets : ∀ slot ∈ after.buckets, slot = ops.blank ∨ added slot ∨ slot ∈ table.buckets

omit [DecidableEq κ] in
theorem StemsFrom.refl (table : Table σ ε) (added : σ → Prop) :
    StemsFrom ops table table added :=
  ⟨⟨0, rfl⟩, fun _ member => Or.inr (Or.inr member)⟩

omit [DecidableEq κ] in
theorem StemsFrom.imp {added also : σ → Prop} (stems : StemsFrom ops table after added)
    (weaker : ∀ slot, added slot → also slot) : StemsFrom ops table after also :=
  ⟨stems.extra, fun slot member =>
    (stems.buckets slot member).imp_right (Or.imp_left (weaker slot))⟩

omit [DecidableEq κ] in
theorem StemsFrom.trans {middle : Table σ ε} {added : σ → Prop}
    (first : StemsFrom ops table middle added) (second : StemsFrom ops middle after added) :
    StemsFrom ops table after added := by
  obtain ⟨early, earlyExtra⟩ := first.extra
  obtain ⟨late, lateExtra⟩ := second.extra
  refine ⟨⟨late + early, ?_⟩, ?_⟩
  · rw [lateExtra, earlyExtra, Function.iterate_add_apply]
  · intro slot member
    rcases second.buckets slot member with blank | new | old
    · exact Or.inl blank
    · exact Or.inr (Or.inl new)
    · exact first.buckets slot old

theorem place_stems {entry : σ} {position : Option Nat}
    (placed : table.place ops entry = some (after, position)) :
    StemsFrom ops table after (· = entry) := by
  have written (position : Nat) (slot : σ) (member : slot ∈ table.buckets.set position entry) :
      slot = ops.blank ∨ slot = entry ∨ slot ∈ table.buckets :=
    Or.inr (List.mem_or_eq_of_mem_set member).symm
  simp only [place] at placed
  split at placed
  · cases placed
  · split at placed <;> cases placed
    · exact .refl _ _
    · exact ⟨⟨0, rfl⟩, written _⟩
    · exact ⟨⟨0, rfl⟩, written _⟩

theorem insertWith_stems {rebuild : Table σ ε → Option (Table σ ε × Bool)}
    (rebuilds : ∀ table after done, rebuild table = some (after, done) →
      StemsFrom ops table after fun _ => False) {entry : σ} {position : Option Nat}
    (inserted : insertWith ops rebuild table entry = some (after, position)) :
    StemsFrom ops table after (· = entry) := by
  simp only [insertWith] at inserted
  split at inserted
  · split at inserted
    · split at inserted
      · cases inserted
      · cases inserted
        rename_i rebuilt
        exact (rebuilds _ _ _ rebuilt).imp fun _ => False.elim
      · rename_i middle rebuilt
        exact ((rebuilds _ _ _ rebuilt).imp fun _ => False.elim).trans (place_stems inserted)
    · exact place_stems inserted
  · cases inserted
    exact .refl _ _

omit [DecidableEq κ] in
theorem reinsert_stems {insert : Table σ ε → σ → Option (Table σ ε × Option Nat)}
    (inserts : ∀ table after entry position, insert table entry = some (after, position) →
      StemsFrom ops table after (· = entry)) {slots : List σ} {done : Bool}
    (reinserted : reinsert ops insert slots table = some (after, done)) :
    StemsFrom ops table after (· ∈ slots) := by
  induction slots generalizing table with
  | nil =>
      cases reinserted
      exact .refl _ _
  | cons entry rest ih =>
      have first {middle : Table σ ε} {position : Option Nat}
          (inserted : insert table entry = some (middle, position)) :
          StemsFrom ops table middle (· ∈ entry :: rest) :=
        (inserts _ _ _ _ inserted).imp fun slot same => by simp [same]
      simp only [reinsert] at reinserted
      split at reinserted
      · split at reinserted
        · cases reinserted
        · cases reinserted
          rename_i inserted
          exact first inserted
        · rename_i middle _ inserted
          exact (first inserted).trans
            ((ih reinserted).imp fun slot member => List.mem_cons_of_mem _ member)
      · exact (ih reinserted).imp fun slot member => List.mem_cons_of_mem _ member

theorem rehash_stems {fuel : Nat} {done : Bool}
    (rebuilt : rehash ops fuel table = some (after, done)) :
    StemsFrom ops table after fun _ => False := by
  induction fuel generalizing table after done with
  | zero => cases rebuilt
  | succ fuel ih =>
      simp only [rehash] at rebuilt
      split at rebuilt
      · cases rebuilt
      · rename_i refilled reinserted
        cases rebuilt
        have stems := reinsert_stems (fun _ _ _ _ inserted =>
          insertWith_stems (fun _ _ _ => ih) inserted) reinserted
        obtain ⟨times, extra⟩ := stems.extra
        refine ⟨⟨times + 1, by rw [extra, Function.iterate_add_apply]; rfl⟩, ?_⟩
        intro slot member
        rcases stems.buckets slot member with blank | old | fresh
        · exact Or.inl blank
        · exact Or.inr (Or.inr old)
        · exact Or.inl (List.eq_of_mem_replicate fresh)
      · cases rebuilt
        exact .refl _ _

theorem insert_stems {fuel : Nat} {entry : σ} {position : Option Nat}
    (inserted : insert ops fuel table entry = some (after, position)) :
    StemsFrom ops table after (· = entry) :=
  insertWith_stems (fun _ _ _ => rehash_stems) inserted

omit [DecidableEq κ] in
theorem delete_stems {position : Nat} {result : Option Nat}
    (deleted : table.delete ops position = (after, result)) :
    after.extra = table.extra ∧ ∀ slot ∈ after.buckets,
      slot = ops.erase (table.slot ops position) ∨ slot ∈ table.buckets := by
  unfold delete at deleted
  split at deleted <;> cases deleted
  · exact ⟨rfl, fun slot member => (List.mem_or_eq_of_mem_set member).symm⟩
  · exact ⟨rfl, fun slot member => Or.inr member⟩

end Stems

end Table

end FrameCode.OpenAddressing
