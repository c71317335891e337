import FrameCode.ImDuplicateCalls
import FrameCode.ImDuplicateForest

/-!
# When a duplication is faithful

The blocks that a duplication makes are one bucket too short.  They serve a vector with so much
unused room in its attached area, and no hash table.
-/

namespace FrameCode.ImDuplicate

open BlockHeap OpenAddressing ImTypes ImHashtable ImVector ImSerialize MachineInt

/-! ## Objects with rewritten buckets -/

section Rewriting

variable {gone : Nat → Prop} {kind : Kind} {object : ImObject Nat} {capacity : Nat} {label : Label}
variable {live kept : References} {used unused : List (ImVectorBucket Nat)}

theorem map_forgetPart {buckets buckets' : List (ImVectorBucket Nat)}
    (rewritten : List.Forall₂ Rewritten buckets buckets') :
    buckets'.map forgetPart = buckets.map forgetPart := by
  induction rewritten with
  | nil => rfl
  | cons first _ ih => rw [List.map_cons, List.map_cons, first.forget_eq, ih]

theorem length_parts (formed : Formed object) : (parts object).length = bucketCount object := by
  cases object with
  | hashtable table => simpa [parts, bucketCount] using formed.length_buckets
  | vector vector => exact formed.1.length_buckets
  | bytes => cases formed
  | torn => cases formed

theorem usedParts_withParts (formed : Formed object)
    (used_eq : used.length = (usedParts object).length)
    (unused_eq : unused.length = (unusedParts object).length) :
    usedParts (withParts object (used ++ unused)) = used ∧
      unusedParts (withParts object (used ++ unused)) = unused := by
  cases object with
  | vector vector =>
      have inuse : used.length = vector.inuse := by
        rw [used_eq, usedParts, List.length_take, formed.1.length_buckets,
          Nat.min_eq_left formed.1.inuse_le]
      exact ⟨List.take_left' inuse, List.drop_left' inuse⟩
  | hashtable table =>
      obtain rfl : unused = [] := List.eq_nil_of_length_eq_zero unused_eq
      have whole : parts (withParts (.hashtable table) used) = used := parts_withParts used_eq
      rw [List.append_nil]
      exact ⟨whole, rfl⟩
  | bytes => cases formed
  | torn => cases formed

theorem formed_withParts (formed : Formed object)
    (rewritten : List.Forall₂ Rewritten (parts object) used) : Formed (withParts object used) := by
  cases object with
  | vector vector =>
      exact ⟨⟨rewritten.length_eq.symm.trans formed.1.length_buckets, formed.1.inuse_le⟩, formed.2⟩
  | hashtable table =>
      refine Table.Inv.of_similar formed rfl rfl rfl ?_
      change List.Forall₂ Rewritten (table.buckets.map _) used at rewritten
      change List.Forall₂ _ table.buckets (List.zipWith _ table.buckets used)
      generalize table.buckets = buckets at rewritten ⊢
      induction buckets generalizing used with
      | nil => cases rewritten; exact .nil
      | cons bucket buckets ih =>
          cases rewritten with
          | cons first rest => exact .cons ⟨first.status_eq, rfl⟩ (ih rest)
  | bytes => cases formed
  | torn => cases formed

/-- All buckets left behind keep objects of their own. -/
theorem leftBehind_self (gone : Nat → Prop) (live kept : References) :
    LeftBehind gone live kept kept false := by
  induction kept with
  | nil => exact .nil
  | cons referent kept ih => exact .keep ih

theorem IsObject.rewritten (isObject : IsObject gone kind ⟨object, capacity⟩ label live kept)
    (usedRewritten : List.Forall₂ Rewritten (usedParts object) used)
    (unusedRewritten : List.Forall₂ Rewritten (unusedParts object) unused) :
    IsObject gone kind ⟨withParts object (used ++ unused), capacity⟩ { label with dangling := false }
      (used.filterMap reference) (unused.filterMap reference) := by
  have whole : List.Forall₂ Rewritten (parts object) (used ++ unused) := by
    rw [parts_eq_append]
    exact List.rel_append usedRewritten unusedRewritten
  have length_eq := whole.length_eq.symm
  obtain ⟨used_eq, unused_eq⟩ := usedParts_withParts isObject.formed usedRewritten.length_eq.symm
    unusedRewritten.length_eq.symm
  constructor
  case kind_eq => exact kindOf_withParts.trans isObject.kind_eq
  case formed => exact formed_withParts isObject.formed whole
  case proper =>
    rw [parts_withParts length_eq]
    intro bucket member
    obtain ⟨i, inside, rfl⟩ := List.mem_iff_getElem.mp member
    exact (whole.get (by omega) inside).proper
  case inside =>
    rw [used_eq]
    intro bucket member access accessed
    obtain ⟨i, inside, rfl⟩ := List.mem_iff_getElem.mp member
    have inside' : i < (usedParts object).length := by
      rw [usedRewritten.length_eq]
      exact inside
    have same := (usedRewritten.get inside' inside).attached_eq object
    simp only [List.get_eq_getElem] at same
    rw [attachedAccesses_withParts, same] at accessed
    simpa using isObject.inside _ (List.getElem_mem inside') access accessed
  case capacity_eq => simpa using isObject.capacity_eq
  case object_eq =>
    rw [forget_withParts length_eq (map_forgetPart whole)]
    exact isObject.object_eq
  case label_capacity => exact isObject.label_capacity
  case live_eq => rw [used_eq]
  case left =>
    rw [unused_eq]
    exact leftBehind_self gone _ _

/-- The object as it is, in the block of a copy. -/
theorem IsObject.copied (isObject : IsObject gone kind ⟨object, capacity⟩ label live kept)
    (positive : 0 < bucketCount object) :
    IsObject gone kind ⟨object, copySize object⟩ { label with capacity := copySize object } live
      kept :=
  { isObject with
    capacity_eq := Or.inr ⟨positive, rfl⟩
    object_eq := isObject.object_eq
    label_capacity := rfl
    left := isObject.left }

theorem kindOf_label (isObject : IsObject gone kind ⟨object, capacity⟩ label live kept) :
    kindOf label.object = some kind := by
  rw [isObject.object_eq, forget, kindOf_withParts]
  exact isObject.kind_eq

/-- What the walk over the buckets finds out. -/
theorem IsObject.sound_iff (isObject : IsObject gone kind ⟨object, capacity⟩ label live kept) :
    label.Sound ↔ label.dangling = false ∧ 0 < bucketCount object ∧
      (∀ bucket ∈ usedParts object, ¬ IsAttachedObject bucket.value) ∧
      ∀ bucket ∈ unusedParts object, ¬ IsAttachedObject bucket.value := by
  have detached : (∀ bucket ∈ parts label.object, ¬ IsAttachedObject bucket.value) ↔
      ∀ bucket ∈ parts object, ¬ IsAttachedObject bucket.value := by
    rw [isObject.object_eq, parts_forget, List.forall_mem_map]
    simp only [isAttachedObject_forgetPart]
  have count : bucketCount label.object = bucketCount object := by
    rw [isObject.object_eq, forget, bucketCount_withParts]
  rw [parts_eq_append object, List.forall_mem_append] at detached
  constructor
  · rintro ⟨undangling, positive, walks⟩
    exact ⟨undangling, count ▸ positive, detached.mp walks⟩
  · rintro ⟨undangling, positive, walks⟩
    exact ⟨undangling, count ▸ positive, detached.mpr walks⟩

/-- The copied bytes are in the block exactly when there is a bucket. -/
theorem IsObject.copySize_le_iff
    (isObject : IsObject gone kind ⟨object, capacity⟩ label live kept) :
    copySize object ≤ capacity ↔ 0 < bucketCount object := by
  have capacity_eq := isObject.capacity_eq
  have formed := isObject.formed
  have few : bucketCount object < 4294967296 := by
    cases object with
    | hashtable table => exact Table.Inv.size_lt formed
    | vector vector => exact formed.2
    | bytes => cases formed
    | torn => cases formed
  have less : (0 < bucketCount object → pred32 (bucketCount object) < bucketCount object) ∧
      (bucketCount object = 0 → 0 < pred32 (bucketCount object)) := by
    unfold pred32
    omega
  cases object with
  | hashtable table =>
      simp only [copySize, ImObject.size, hashSize, bucketCount] at capacity_eq less ⊢
      constructor <;> omega
  | vector vector =>
      simp only [copySize, ImObject.size, vectorSize, bucketCount] at capacity_eq less ⊢
      constructor <;> omega
  | bytes => cases formed
  | torn => cases formed

end Rewriting

/-! ## Duplicating an object -/

theorem imDuplicateWithInfo_freed {fuel : Nat} {kind : Kind} {address : Nat} {h : Heap Block}
    (freed : h.blocks address = none) : imDuplicateWithInfo fuel kind address h = none := by
  cases fuel with
  | zero => rfl
  | succ fuel =>
      refine bind_none ?_ _
      change (h.blocks address).map _ = none
      rw [freed]
      rfl

/-- The objects of the old references and those of the new ones are apart; the trees in use are
twins of the former ones. -/
def Divided (gone : Nat → Prop) (fuel : Nat) (h h' : Heap Block) (footprint : Set Nat)
    (live kept live' kept' : References) (trees : Forest Label) : Prop :=
  ∃ used unused used' unused' liveTrees keptTrees liveTrees' keptTrees',
    StandsFor gone h' live used liveTrees ∧ StandsFor gone h' kept unused keptTrees ∧
    StandsFor gone h' live' used' liveTrees' ∧ StandsFor gone h' kept' unused' keptTrees' ∧
    Disjoint used unused ∧ Disjoint used' unused' ∧ Disjoint (used ∪ unused) (used' ∪ unused') ∧
    Stems h footprint ((used ∪ unused) ∪ (used' ∪ unused')) ∧
    Twins false trees liveTrees ∧ Twins true trees liveTrees' ∧
    (SoundWithin liveTrees fuel ∧ SoundWithin keptTrees fuel) ∧
    SoundWithin liveTrees' fuel ∧ SoundWithin keptTrees' fuel

/-- The loop over all buckets of an object. -/
theorem CopySpec.yields_copyBuckets {gone : Nat → Prop} {fuel : Nat}
    {duplicate : Kind → Nat → HeapM Block Nat} (spec : CopySpec gone duplicate fuel)
    {h : Heap Block} (valid : Valid gone h) {kind : Kind} {address capacity : Nat}
    {object : ImObject Nat} {label : Label} {live kept : References}
    (found : h.blocks address = some ⟨object, capacity⟩)
    (isObject : IsObject gone kind ⟨object, capacity⟩ label live kept)
    {used unused : Set Nat} {liveTrees keptTrees : Forest Label}
    (lives : StandsFor gone h live used liveTrees)
    (keeps : StandsFor gone h kept unused keptTrees) (outside : address ∉ used ∪ unused)
    (apart : Disjoint used unused) :
    Yields (copyBuckets duplicate address (bucketCount object) 0 h)
      ((SoundWithin liveTrees fuel ∧ ∀ bucket ∈ usedParts object, ¬ IsAttachedObject bucket.value) ∧
        (SoundWithin keptTrees fuel ∧ label.dangling = false ∧
          ∀ bucket ∈ unusedParts object, ¬ IsAttachedObject bucket.value)) fun _ h' =>
      Changes h h' (insert address (used ∪ unused)) ∧
        ∃ newUsed newUnused, List.Forall₂ Rewritten (usedParts object) newUsed ∧
          List.Forall₂ Rewritten (unusedParts object) newUnused ∧
          h'.blocks address = some ⟨withParts object (newUsed ++ newUnused), capacity⟩ ∧
          Divided gone fuel h h' (used ∪ unused) live kept (newUsed.filterMap reference)
            (newUnused.filterMap reference) liveTrees := by
  have whole := parts_eq_append object
  have count : bucketCount object = (usedParts object).length + (unusedParts object).length := by
    rw [← length_parts isObject.formed, whole, List.length_append]
  have found' : h.blocks address =
      some ⟨withParts object ([] ++ (usedParts object ++ unusedParts object)), capacity⟩ := by
    rw [found, List.nil_append, ← whole, withParts_parts]
  have proper := isObject.proper
  simp only [whole, List.forall_mem_append] at proper
  obtain rfl := isObject.live_eq
  rw [Set.mem_union, not_or] at outside
  have allocated : ∀ x ∈ insert address (used ∪ unused), ∃ content, h.blocks x = some content := by
    rintro x (rfl | inside | inside)
    · exact ⟨_, found⟩
    · exact lives.allocated x inside
    · exact keeps.allocated x inside
  rw [count, copyBuckets_add]
  refine (spec.yields_used valid found' (by rw [whole]; rfl) proper.1 lives outside.1).bind ?_
  rintro _ h₁ ⟨newUsed, rewritten, stored, changes, left, fresh, leftTrees, freshTrees, leftStands,
    freshStands, between, stems, leftTwins, freshTwins, leftSound, freshSound⟩ -
  have valid₁ := valid.changes changes
  have away := stems.notMem valid.bounded found outside.1
  have stems₁ : Stems h (insert address used) (left ∪ fresh) := fun x inside =>
    (stems x inside).imp_left (Set.mem_insert_of_mem _)
  obtain ⟨keeps₁, keptApart⟩ := keeps.beside valid.bounded changes
    (by rw [Set.disjoint_insert_right]; exact ⟨outside.2, apart.symm⟩) stems₁
  rw [Set.disjoint_union_right] at keptApart
  rw [Set.mem_union, not_or] at away
  have stage : Stage gone fuel h₁ h₁ (left ∪ unused) ((usedParts object).filterMap reference) kept
      [] [] liveTrees keptTrees :=
    ⟨left, unused, ∅, ∅, leftTrees, .nil, .nil, leftStands, keeps₁, .nil, .nil, keptApart.1.symm,
      by simp, by simp, by simp [Stems]; tauto, leftTwins, leftSound, trivial, trivial⟩
  have start : 0 + (usedParts object).length = newUsed.length := by
    rw [Nat.zero_add, rewritten.length_eq]
  have length_eq : (newUsed ++ unusedParts object).length = (parts object).length := by
    rw [whole, List.length_append, List.length_append, rewritten.length_eq]
  have allocated₁ : ∀ x ∈ insert address (left ∪ unused), ∃ content, h₁.blocks x = some content := by
    rintro x (rfl | inside | inside)
    · exact ⟨_, stored⟩
    · exact leftStands.allocated x inside
    · exact keeps₁.allocated x inside
  rw [start]
  rw [List.nil_append] at stored
  refine (spec.yields_unused valid₁ stored (by simp [away, outside.2])
    ((Changes.refl valid₁.bounded).mono (Set.empty_subset _) allocated₁) stored length_eq proper.2
    isObject.left stage).imp Iff.rfl ?_
  rintro _ h₂ - ⟨newUnused, rewritten', stored₂, changes₂, used', nothing, unused', new, liveTrees',
    keptTrees', newTrees, liveStands', nothingStands, keptStands', newStands, -, apart₁, apart₂,
    stems₂, twins, liveSound', keptSound', newSound⟩
  cases nothingStands
  rw [Set.union_empty] at apart₁ apart₂ stems₂
  have stems₃ : Stems h₁ (insert address (left ∪ unused)) (used' ∪ unused' ∪ new) := fun x inside =>
    (stems₂ x inside).imp_left (Set.mem_insert_of_mem _)
  have freshAway : Disjoint fresh (insert address (left ∪ unused)) := by
    simp only [Set.disjoint_insert_right, Set.disjoint_union_right]
    exact ⟨away.2, between.symm, keptApart.2.symm⟩
  obtain ⟨freshStands', freshApart⟩ := freshStands.beside valid₁.bounded changes₂ freshAway stems₃
  simp only [Set.disjoint_union_left, Set.disjoint_union_right] at freshApart apart₂
  refine ⟨?_, newUsed, newUnused, rewritten, rewritten', stored₂, used', unused', fresh, new,
    liveTrees', keptTrees', freshTrees, newTrees, liveStands', keptStands', freshStands', newStands,
    apart₁, freshApart.2, ?_, ?_, twins, freshTwins, ⟨liveSound', keptSound'⟩, freshSound, newSound⟩
  · refine (changes.mono (Set.insert_subset_insert Set.subset_union_left) allocated).trans changes₂ ?_
    rintro x (rfl | inside | inside)
    · exact Or.inl (Set.mem_insert _ _)
    · exact (stems x (Or.inl inside)).imp_left fun inside => Or.inr (Or.inl inside)
    · exact Or.inl (Or.inr (Or.inr inside))
  · simp only [Set.disjoint_union_left, Set.disjoint_union_right]
    exact ⟨⟨freshApart.1.1.symm, freshApart.1.2.symm⟩, apart₂.1, apart₂.2⟩
  · have fromLeft : Stems h (used ∪ unused) (left ∪ unused) := by
      rintro x (inside | inside)
      · exact (stems x (Or.inl inside)).imp_left Or.inl
      · exact Or.inl (Or.inr inside)
    have later := fromLeft.trans stems₂ changes.next_le
    rintro x ((inside | inside) | (inside | inside))
    · exact later x (Or.inl (Or.inl inside))
    · exact later x (Or.inl (Or.inr inside))
    · exact (stems x (Or.inr inside)).imp_left Or.inl
    · exact later x (Or.inr inside)

theorem IsObject.soundWithin_iff {gone : Nat → Prop} {fuel : Nat} {kind : Kind} {capacity : Nat}
    {object : ImObject Nat} {label : Label} {live kept : References}
    {liveTrees keptTrees : Forest Label}
    (isObject : IsObject gone kind ⟨object, capacity⟩ label live kept)
    (positive : 0 < bucketCount object) :
    SoundWithin (.node label liveTrees keptTrees .nil) (fuel + 1) ↔
      ((SoundWithin liveTrees fuel ∧ ∀ bucket ∈ usedParts object, ¬ IsAttachedObject bucket.value) ∧
        (SoundWithin keptTrees fuel ∧ label.dangling = false ∧
          ∀ bucket ∈ unusedParts object, ¬ IsAttachedObject bucket.value)) ∧ True := by
  simp only [SoundWithin, kindOf_label isObject, isObject.sound_iff, Nat.add_sub_cancel]
  simp only [reduceCtorEq, false_or, and_true, Nat.succ_pos, true_and]
  tauto

/-- The original with its new references and the copy with the old ones. -/
theorem Divided.doubled {gone : Nat → Prop} {fuel : Nat} {h h' : Heap Block} {kind : Kind}
    {address capacity : Nat} {object : ImObject Nat} {label : Label} {live kept : References}
    {used unused : Set Nat} {liveTrees keptTrees : Forest Label}
    {newUsed newUnused : List (ImVectorBucket Nat)} (valid : Valid gone h)
    (found : h.blocks address = some ⟨object, capacity⟩)
    (isObject : IsObject gone kind ⟨object, capacity⟩ label live kept) (sound : label.Sound)
    (allocated : ∀ x ∈ used ∪ unused, ∃ content, h.blocks x = some content)
    (outside : address ∉ used ∪ unused)
    (copied : h'.blocks h.next = some ⟨object, copySize object⟩)
    (rewritten : List.Forall₂ Rewritten (usedParts object) newUsed)
    (rewritten' : List.Forall₂ Rewritten (unusedParts object) newUnused)
    (stored : h'.blocks address = some ⟨withParts object (newUsed ++ newUnused), capacity⟩)
    (divided : Divided gone fuel (h.alloc ⟨object, copySize object⟩) h' (used ∪ unused) live kept
      (newUsed.filterMap reference) (newUnused.filterMap reference) liveTrees) :
    Doubled gone (fuel + 1) h h' (insert address (used ∪ unused) ∪ ∅) [(.object kind, address)]
      [(.object kind, h.next)] (.node label liveTrees keptTrees .nil) := by
  obtain ⟨old, left, new, fresh, oldTrees, leftTrees, newTrees, freshTrees, oldStands, leftStands,
    newStands, freshStands, apartOld, apartNew, between, stems, oldTwins, newTwins, oldSound,
    newSound⟩ := divided
  have less := valid.bounded.lt found
  have positive := (isObject.sound_iff.mp sound).2.1
  have notAddress : address ∉ (old ∪ left) ∪ (new ∪ fresh) := by
    intro member
    rcases stems address member with inside | later
    · exact outside inside
    · rw [Heap.alloc_next] at later
      omega
  have notCopy : h.next ∉ (old ∪ left) ∪ (new ∪ fresh) := by
    intro member
    rcases stems h.next member with inside | later
    · obtain ⟨content, here⟩ := allocated h.next inside
      exact absurd (valid.bounded.lt here) (Nat.lt_irrefl _)
    · rw [Heap.alloc_next] at later
      omega
  rw [Set.mem_union, not_or] at notAddress notCopy
  have copySize_eq : copySize label.object = copySize object := by
    rw [isObject.object_eq, forget, copySize_withParts]
  refine ⟨_, _, _, _,
    .cons stored (isObject.rewritten rewritten rewritten') newStands freshStands notAddress.2 apartNew
      .nil (by simp),
    .cons copied (isObject.copied positive) oldStands leftStands notCopy.1 apartOld .nil (by simp),
    ?_, ?_, .node rfl rfl newTwins .nil, .node rfl copySize_eq.symm oldTwins .nil,
    ⟨Or.inr ⟨Nat.succ_pos _, ⟨rfl, sound.positive, sound.detached⟩, newSound⟩, trivial⟩,
    ⟨Or.inr ⟨Nat.succ_pos _, ⟨sound.undangling, sound.positive, sound.detached⟩, oldSound⟩,
      trivial⟩⟩
  · simp only [Set.union_empty, Set.disjoint_insert_left, Set.disjoint_insert_right,
      Set.mem_insert_iff, not_or]
    exact ⟨⟨less.ne', notCopy.2⟩, notAddress.1, between.symm⟩
  · have within (x : Nat) (member : x ∈ (old ∪ left) ∪ (new ∪ fresh)) :
        x ∈ insert address (used ∪ unused) ∪ ∅ ∨ h.next ≤ x := by
      rcases stems x member with inside | later
      · exact Or.inl (Or.inl (Or.inr inside))
      · exact Or.inr ((Nat.le_succ _).trans later)
    rintro x (((rfl | inside) | nothing) | ((rfl | inside) | nothing))
    · exact Or.inl (Or.inl (Set.mem_insert _ _))
    · exact within x (Or.inr inside)
    · cases nothing
    · exact Or.inr le_rfl
    · exact within x (Or.inl inside)
    · cases nothing

theorem copySpec (gone : Nat → Prop) (fuel : Nat) :
    CopySpec gone (imDuplicateWithInfo fuel) fuel := by
  induction fuel with
  | zero =>
      refine ⟨imDuplicateWithInfo_freed, ?_⟩
      intro h kind address footprint trees valid stands
      cases stands with
      | cons found isNode _ _ _ _ _ _ =>
          rintro ⟨bytes | ⟨positive, -⟩, -⟩
          · rw [kindOf_label isNode] at bytes
            cases bytes
          · cases positive
  | succ fuel ih =>
      refine ⟨imDuplicateWithInfo_freed, ?_⟩
      intro h kind address footprint trees valid stands
      cases stands with
      | @cons _ _ block label live kept _ used unused _ _ _ _ found isNode lives keeps outside apart
          rests away =>
          cases rests
          obtain ⟨object, capacity⟩ := block
          have isObject : IsObject gone kind ⟨object, capacity⟩ label live kept := isNode
          rw [imDuplicateWithInfo, bind_read found]
          by_cases positive : 0 < bucketCount object
          · rw [if_pos ⟨isObject.kind_eq, isObject.copySize_le_iff.mpr positive⟩, bind_alloc,
              isObject.soundWithin_iff positive]
            have changes₀ := Changes.alloc valid.bounded ⟨object, copySize object⟩
            have found₀ := (h.alloc_other ⟨object, copySize object⟩
              (valid.bounded.lt found).ne).trans found
            refine (ih.yields_copyBuckets (valid.changes changes₀) found₀ isObject
              (lives.frame valid.bounded changes₀ (by simp))
              (keeps.frame valid.bounded changes₀ (by simp)) outside apart).bind ?_
            rintro _ h' ⟨changes, newUsed, newUnused, rewritten, rewritten', stored, divided⟩ walks
            have sound : label.Sound := isObject.sound_iff.mpr
              ⟨walks.2.2.1, positive, walks.1.2, walks.2.2.2⟩
            have allocated : ∀ x ∈ insert address (used ∪ unused), ∃ content,
                h.blocks x = some content := by
              rintro x (rfl | inside | inside)
              · exact ⟨_, found⟩
              · exact lives.allocated x inside
              · exact keeps.allocated x inside
            have copied : h'.blocks h.next = some ⟨object, copySize object⟩ := by
              rw [changes.same h.next (by simp) ?_, h.alloc_self]
              intro inside
              obtain ⟨content, here⟩ := allocated h.next inside
              exact absurd (valid.bounded.lt here) (Nat.lt_irrefl _)
            refine ⟨trivial, ?_, divided.doubled valid found isObject sound
              (fun x inside => allocated x (Or.inr inside)) outside copied rewritten rewritten' stored⟩
            rw [Set.union_empty]
            exact (changes₀.mono (Set.empty_subset _) allocated).trans changes fun x inside =>
              Or.inl inside
          · rw [if_neg fun both => positive (isObject.copySize_le_iff.mp both.2)]
            rintro ⟨bytes | ⟨-, sound, -⟩, -⟩
            · rw [kindOf_label isObject] at bytes
              cases bytes
            · exact positive (isObject.sound_iff.mp sound).2.1

/-! ## Room -/

/-- The attached area has room for the bucket that a copy lacks; a hash table never does with
that. -/
def Label.Roomy (label : Label) : Prop :=
  match label.object with
  | .hashtable _ => False
  | .vector vector => vector.attached.attachedOffset + 32 ≤ vector.attached.attachedSize
  | _ => True

/-- The objects can be walked over, and those that are left behind as well. -/
def SoundTrees : Forest Label → Prop
  | .nil => True
  | .node label live kept rest =>
      (kindOf label.object = none ∨ label.Sound ∧ SoundTrees live ∧ SoundTrees kept) ∧
        SoundTrees rest

theorem SoundWithin.mono {trees : Forest Label} {depth depth' : Nat} (sound : SoundWithin trees depth)
    (le : depth ≤ depth') : SoundWithin trees depth' := by
  induction trees generalizing depth depth' with
  | nil => trivial
  | node label live kept rest liveIH keptIH restIH =>
      obtain ⟨here, others⟩ := sound
      refine ⟨here.imp_right ?_, restIH others le⟩
      rintro ⟨positive, isSound, lives, keeps⟩
      exact ⟨by omega, isSound, liveIH lives (by omega), keptIH keeps (by omega)⟩

theorem soundTrees_iff {trees : Forest Label} :
    SoundTrees trees ↔ ∃ depth, SoundWithin trees depth := by
  induction trees with
  | nil => exact ⟨fun _ => ⟨0, trivial⟩, fun _ => trivial⟩
  | node label live kept rest liveIH keptIH restIH =>
      constructor
      · rintro ⟨here, others⟩
        obtain ⟨depth, within⟩ := restIH.mp others
        rcases here with bytes | ⟨isSound, lives, keeps⟩
        · exact ⟨depth, Or.inl bytes, within⟩
        · obtain ⟨depth₁, within₁⟩ := liveIH.mp lives
          obtain ⟨depth₂, within₂⟩ := keptIH.mp keeps
          exact ⟨depth + (depth₁ + depth₂) + 1, Or.inr ⟨Nat.succ_pos _, isSound,
            within₁.mono (by omega), within₂.mono (by omega)⟩, within.mono (by omega)⟩
      · rintro ⟨depth, here, others⟩
        refine ⟨here.imp_right ?_, restIH.mpr ⟨depth, others⟩⟩
        rintro ⟨-, isSound, lives, keeps⟩
        exact ⟨isSound, liveIH.mpr ⟨_, lives⟩, keptIH.mpr ⟨_, keeps⟩⟩

section Room

variable {gone : Nat → Prop} {kind : Kind} {object : ImObject Nat} {capacity : Nat} {label : Label}
variable {live kept : References}

/-- A vector with room fits into its block. -/
theorem IsObject.fitting {vector : ImVector Nat}
    (isObject : IsObject gone kind ⟨.vector vector, capacity⟩ label live kept)
    (positive : 0 < vector.numberOfBuckets) (roomy : label.Roomy) : Fitting capacity vector := by
  obtain ⟨sized, small⟩ : Formed (.vector vector) := isObject.formed
  refine ⟨sized, small, isObject.inside, ?_⟩
  have capacity_eq := isObject.capacity_eq
  have less : pred32 vector.numberOfBuckets = vector.numberOfBuckets - 1 := pred32_eq positive small
  rw [Label.Roomy, isObject.object_eq] at roomy
  simp only [forget, withParts] at roomy
  simp only [copySize, ImObject.size, vectorSize, less] at capacity_eq ⊢
  omega

theorem IsObject.contained (isObject : IsObject gone kind ⟨object, capacity⟩ label live kept)
    (positive : 0 < bucketCount object) (roomy : label.Roomy) : Contained ⟨object, capacity⟩ := by
  cases object with
  | vector vector => exact (isObject.fitting positive roomy).contained
  | hashtable table =>
      rw [Label.Roomy, isObject.object_eq] at roomy
      exact roomy.elim
  | bytes => cases isObject.kind_eq
  | torn => cases isObject.kind_eq

/-- Only a vector with room fits into the block of a copy. -/
theorem IsObject.roomy (isObject : IsObject gone kind ⟨object, copySize object⟩ label live kept)
    (contained : Contained ⟨object, copySize object⟩) : label.Roomy := by
  have positive := isObject.copySize_le_iff.mp le_rfl
  rw [Label.Roomy, isObject.object_eq]
  cases object with
  | vector vector =>
      obtain ⟨sized, small⟩ : Formed (.vector vector) := isObject.formed
      have room := room_of_contained sized small positive contained
      have less : pred32 vector.numberOfBuckets = vector.numberOfBuckets - 1 :=
        pred32_eq positive small
      simp only [bucketCount] at positive
      simp only [forget, withParts]
      simp only [copySize, vectorSize, less] at room
      omega
  | hashtable table => exact absurd contained (not_contained_hashtable isObject.formed)
  | bytes => cases isObject.kind_eq
  | torn => cases isObject.kind_eq

theorem contained_bytes (bytes : List UInt8) (capacity : Nat) : Contained ⟨.bytes bytes, capacity⟩ := by
  intro calls _ access member
  cases calls with
  | nil => cases member
  | cons call rest => cases call <;> simp [accesses, perform, lookup] at member

end Room

/-! ## The blocks of an object -/

section Blocks

variable {gone : Nat → Prop} {h h' : Heap Block} {references : References} {footprint : Set Nat}
variable {trees : Forest Label} {referent : Referent × Nat} {x : Nat} {short : Bool}

theorem LeftBehind.mem {live rest kept : References} {dangling : Bool}
    (left : LeftBehind gone live rest kept dangling) (undangling : dangling = false)
    (member : referent ∈ rest) : referent ∈ live ∨ referent ∈ kept := by
  induction left with
  | nil => cases member
  | inUse used _ ih =>
      rcases List.mem_cons.mp member with rfl | later
      · exact Or.inl used
      · exact ih undangling later
  | keep _ ih =>
      rcases List.mem_cons.mp member with rfl | later
      · exact Or.inr (List.mem_cons_self ..)
      · exact (ih undangling later).imp_right (List.mem_cons_of_mem _)
  | freed => cases undangling

/-- Whatever the buckets of a sound object lead to is in its footprint. -/
theorem mem_footprint (stands : StandsFor gone h references footprint trees)
    (sound : SoundTrees trees) (member : referent ∈ references) (leads : Leads parts h referent.2 x) :
    x ∈ footprint := by
  induction stands generalizing referent with
  | nil => cases member
  | @cons sort address block label live kept rest used unused others _ _ _ found isNode _ _ _ _ _ _
      liveIH keptIH restIH =>
      rcases List.mem_cons.mp member with rfl | later
      · cases leads with
        | self => exact Or.inl (Set.mem_insert _ _)
        | step found' refers leads =>
            obtain rfl := Option.some.inj (found.symm.trans found')
            cases sort with
            | bytes length =>
                obtain ⟨⟨bytes, -, rfl⟩, -⟩ := isNode
                cases refers
            | object kind =>
                have isObject : IsObject gone kind block label live kept := isNode
                obtain ⟨bytes | ⟨isSound, lives, keeps⟩, -⟩ := sound
                · rw [kindOf_label isObject] at bytes
                  cases bytes
                · rw [parts_eq_append, List.filterMap_append, isObject.live_eq] at refers
                  rcases List.mem_append.mp refers with inUse | behind
                  · exact Or.inl (Or.inr (Or.inl (liveIH lives inUse leads)))
                  · rcases isObject.left.mem isSound.undangling behind with inUse | isKept
                    · exact Or.inl (Or.inr (Or.inl (liveIH lives inUse leads)))
                    · exact Or.inl (Or.inr (Or.inr (keptIH keeps isKept leads)))
      · exact Or.inr (restIH sound.2 later leads)

/-- All blocks of sound objects with room are contained. -/
theorem contained_of_roomy (stands : StandsFor gone h references footprint trees)
    (sound : SoundTrees trees) (roomy : trees.AllLive Label.Roomy) (member : referent ∈ references)
    (leads : Leads usedParts h referent.2 x) {block : Block} (here : h.blocks x = some block) :
    Contained block := by
  induction stands generalizing referent with
  | nil => cases member
  | @cons sort address content label live kept rest used unused others _ _ _ found isNode _ _ _ _ _ _
      liveIH keptIH restIH =>
      rcases List.mem_cons.mp member with rfl | later
      · cases sort with
        | bytes length =>
            obtain ⟨⟨bytes, -, rfl⟩, -⟩ := isNode
            cases leads with
            | self =>
                obtain rfl := Option.some.inj (found.symm.trans here)
                exact contained_bytes bytes length
            | step found' refers leads =>
                obtain rfl := Option.some.inj (found.symm.trans found')
                cases refers
        | object kind =>
            have isObject : IsObject gone kind content label live kept := isNode
            obtain ⟨bytes | ⟨isSound, lives, -⟩, -⟩ := sound
            · rw [kindOf_label isObject] at bytes
              cases bytes
            · cases leads with
              | self =>
                  obtain rfl := Option.some.inj (found.symm.trans here)
                  exact isObject.contained (isObject.sound_iff.mp isSound).2.1 roomy.1
              | step found' refers leads =>
                  obtain rfl := Option.some.inj (found.symm.trans found')
                  rw [isObject.live_eq] at refers
                  exact liveIH lives roomy.2.1 refers leads
      · exact restIH sound.2 roomy.2.2 later leads

theorem Twins.roomy {trees' : Forest Label} (twins : Twins short trees trees')
    (roomy : trees.AllLive Label.Roomy) : trees'.AllLive Label.Roomy := by
  induction twins with
  | nil => trivial
  | node object_eq _ _ _ livesIH restsIH =>
      obtain ⟨here, lives, rests⟩ := roomy
      refine ⟨?_, livesIH lives, restsIH rests⟩
      rw [Label.Roomy, object_eq]
      exact here

/-- A block of the length of a copy that calls do not leave has room. -/
theorem IsNode.roomy {sort : Referent} {block : Block} {label : Label} {live kept : References}
    (isNode : IsNode gone sort block label live kept)
    (capacity_eq : label.capacity = copySize label.object) (contained : Contained block) :
    label.Roomy := by
  cases sort with
  | bytes length =>
      obtain ⟨⟨bytes, -, rfl⟩, rfl, -, -⟩ := isNode
      trivial
  | object kind =>
      obtain ⟨object, capacity⟩ := block
      have isObject : IsObject gone kind ⟨object, capacity⟩ label live kept := isNode
      obtain rfl : capacity = copySize object := by
        refine isObject.label_capacity.symm.trans (capacity_eq.trans ?_)
        rw [isObject.object_eq, forget, copySize_withParts]
      exact isObject.roomy contained

theorem IsNode.live_eq {sort : Referent} {block : Block} {label : Label} {live kept : References}
    (isNode : IsNode gone sort block label live kept) :
    (usedParts block.content).filterMap reference = live := by
  cases sort with
  | bytes length =>
      obtain ⟨⟨bytes, -, rfl⟩, -, rfl, -⟩ := isNode
      rfl
  | object kind => exact IsObject.live_eq isNode

/-- No call on what the references lead to leaves its block. -/
def AllContained (h : Heap Block) (references : References) : Prop :=
  ∀ referent ∈ references, ∀ x block, Leads usedParts h referent.2 x → h.blocks x = some block →
    Contained block

/-- When the blocks of the original and of the copy are contained, all objects have room: at each
level one of the two has the block of a copy. -/
theorem roomy_of_contained {references' : References} {footprint' : Set Nat}
    {trees₁ trees₂ : Forest Label} (stands : StandsFor gone h references footprint trees₁)
    (stands' : StandsFor gone h references' footprint' trees₂) (twins : Twins false trees trees₁)
    (twins' : Twins true trees trees₂) (contained : AllContained h references)
    (contained' : AllContained h references') : trees.AllLive Label.Roomy := by
  induction trees generalizing references references' footprint footprint' trees₁ trees₂ with
  | nil => trivial
  | node label live kept rest liveIH _ restIH =>
      cases twins with
      | node object_eq capacity_eq lives rests =>
          cases twins' with
          | node object_eq' capacity_eq' lives' rests' =>
              cases stands with
              | cons found isNode liveStands _ _ _ restStands _ =>
                  cases stands' with
                  | cons found' isNode' liveStands' _ _ _ restStands' _ =>
                      refine ⟨?_, ?_, ?_⟩
                      · have roomy := IsNode.roomy isNode'
                          (capacity_eq'.trans (by rw [object_eq']; rfl))
                          (contained' _ (List.mem_cons_self ..) _ _ .self found')
                        rwa [Label.Roomy, object_eq'] at roomy
                      · refine liveIH liveStands' liveStands lives' lives ?_ ?_
                        · intro referent member x block leads
                          exact contained' _ (List.mem_cons_self ..) x block
                            (.step found' (by rwa [IsNode.live_eq isNode']) leads)
                        · intro referent member x block leads
                          exact contained _ (List.mem_cons_self ..) x block
                            (.step found (by rwa [IsNode.live_eq isNode]) leads)
                      · exact restIH restStands restStands' rests rests'
                          (fun referent member => contained referent (List.mem_cons_of_mem _ member))
                          (fun referent member => contained' referent (List.mem_cons_of_mem _ member))

end Blocks

end FrameCode.ImDuplicate
