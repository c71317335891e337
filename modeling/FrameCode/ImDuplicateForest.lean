import FrameCode.ImDuplicate

/-!
# What a duplication makes of a tree of objects

The objects that a bucket leads to form a tree, and so do the objects that the buckets behind
`inuse` of a vector were left with.  A duplication gives the old blocks of the nested objects to the
copy and new ones to the original: of two trees with the same contents, one has new blocks at the
even levels and the other one at the odd levels.
-/

namespace FrameCode.ImDuplicate

open BlockHeap OpenAddressing ImTypes ImHashtable ImVector ImSerialize MachineInt

/-! ## Buckets without their pointers -/

/-- A bucket as far as a duplication keeps it. -/
def forgetPart (bucket : ImVectorBucket Nat) : ImVectorBucket Nat :=
  match bucket.value with
  | .externalString .. => ⟨bucket.valueLength, .externalString 0 0⟩
  | .externalBlock .. => ⟨bucket.valueLength, .externalBlock 0 0⟩
  | .externalNested .. => ⟨bucket.valueLength, .externalNested 0 0⟩
  | .externalVector .. => ⟨bucket.valueLength, .externalVector 0 0⟩
  | _ => bucket

/-- The sizes that callers record in the buckets of strings and blocks. -/
def ProperSize (bucket : ImVectorBucket Nat) : Prop :=
  match bucket.value with
  | .externalString objectSize _ | .externalBlock objectSize _ => objectSize = bucket.valueLength
  | _ => True

def IsAttachedObject : ImValue Nat → Prop
  | .attachedNested .. | .attachedVector .. => True
  | _ => False

/-- A duplication replaces a bucket by one that differs in its pointer only. -/
structure Rewritten (bucket bucket' : ImVectorBucket Nat) : Prop where
  forget_eq : forgetPart bucket' = forgetPart bucket
  proper : ProperSize bucket'

section Parts

variable {bucket bucket' : ImVectorBucket Nat}

theorem status_forgetPart (bucket : ImVectorBucket Nat) :
    (forgetPart bucket).value.status = bucket.value.status := by
  obtain ⟨length, value⟩ := bucket
  cases value <;> rfl

theorem attachedAccesses_forgetPart (object : ImObject Nat) (bucket : ImVectorBucket Nat) :
    attachedAccesses object (forgetPart bucket) = attachedAccesses object bucket := by
  obtain ⟨length, value⟩ := bucket
  cases value <;> rfl

theorem isAttachedObject_forgetPart (bucket : ImVectorBucket Nat) :
    IsAttachedObject (forgetPart bucket).value ↔ IsAttachedObject bucket.value := by
  obtain ⟨length, value⟩ := bucket
  cases value <;> exact Iff.rfl

theorem Rewritten.status_eq (rewritten : Rewritten bucket bucket') :
    bucket'.value.status = bucket.value.status := by
  rw [← status_forgetPart, rewritten.forget_eq, status_forgetPart]

theorem Rewritten.attached_eq (rewritten : Rewritten bucket bucket') (object : ImObject Nat) :
    attachedAccesses object bucket' = attachedAccesses object bucket := by
  rw [← attachedAccesses_forgetPart, rewritten.forget_eq, attachedAccesses_forgetPart]

end Parts

/-! ## Objects with other buckets -/

section Objects

variable {object : ImObject Nat} {buckets others : List (ImVectorBucket Nat)}

@[simp] theorem kindOf_withParts : kindOf (withParts object buckets) = kindOf object := by
  cases object <;> rfl

@[simp] theorem bucketCount_withParts :
    bucketCount (withParts object buckets) = bucketCount object := by
  cases object <;> rfl

@[simp] theorem attachedOf_withParts :
    attachedOf (withParts object buckets) = attachedOf object := by
  cases object <;> rfl

@[simp] theorem attachedBase_withParts :
    attachedBase (withParts object buckets) = attachedBase object := by
  cases object <;> rfl

@[simp] theorem copySize_withParts : copySize (withParts object buckets) = copySize object := by
  cases object <;> rfl

@[simp] theorem size_withParts : (withParts object buckets).size = object.size := by
  cases object <;> simp [withParts, ImObject.size]

@[simp] theorem attachedAccesses_withParts {bucket : ImVectorBucket Nat} :
    attachedAccesses (withParts object buckets) bucket = attachedAccesses object bucket := by
  simp [attachedAccesses]

theorem parts_withParts (length_eq : buckets.length = (parts object).length) :
    parts (withParts object buckets) = buckets := by
  cases object with
  | bytes => exact (List.eq_nil_of_length_eq_zero length_eq).symm
  | torn => exact (List.eq_nil_of_length_eq_zero length_eq).symm
  | vector vector => rfl
  | hashtable table =>
      have same : table.buckets.length = buckets.length := by
        rw [length_eq, parts, List.length_map]
      simp only [withParts, parts, List.map_zipWith]
      exact List.ext_getElem (by simp [same]) (by simp)

theorem withParts_parts : withParts object (parts object) = object := by
  cases object with
  | hashtable table => simp [withParts, parts, List.zipWith_map_right]
  | _ => rfl

theorem withParts_withParts (length_eq : buckets.length = (parts object).length) :
    withParts (withParts object buckets) others = withParts object others := by
  cases object with
  | hashtable table =>
      have same : table.buckets.length = buckets.length := by
        rw [length_eq, parts, List.length_map]
      simp only [withParts, ImObject.hashtable.injEq, Table.mk.injEq, true_and]
      refine List.ext_getElem (by simp [same]) ?_
      simp
  | _ => rfl

theorem parts_eq_append (object : ImObject Nat) :
    parts object = usedParts object ++ unusedParts object := by
  cases object <;> simp [parts, usedParts, unusedParts]

/-- The pointers are left out. -/
def forget (object : ImObject Nat) : ImObject Nat :=
  withParts object ((parts object).map forgetPart)

theorem parts_forget : parts (forget object) = (parts object).map forgetPart :=
  parts_withParts (List.length_map _)

theorem forget_withParts (length_eq : buckets.length = (parts object).length)
    (same : buckets.map forgetPart = (parts object).map forgetPart) :
    forget (withParts object buckets) = forget object := by
  rw [forget, parts_withParts length_eq, same, withParts_withParts length_eq, forget]

end Objects

/-! ## Trees of objects -/

abbrev References := List (Referent × Nat)

/-- What the buckets behind `inuse` still refer to: objects that other buckets use, objects that
nobody else knows of, which are `kept`, and freed ones, which dangle. -/
inductive LeftBehind (gone : Nat → Prop) (live : References) :
    References → References → Bool → Prop
  | nil : LeftBehind gone live [] [] false
  | inUse {referent : Referent × Nat} {rest kept : References} {dangling : Bool}
      (used : referent ∈ live) (others : LeftBehind gone live rest kept dangling) :
      LeftBehind gone live (referent :: rest) kept dangling
  | keep {referent : Referent × Nat} {rest kept : References} {dangling : Bool}
      (others : LeftBehind gone live rest kept dangling) :
      LeftBehind gone live (referent :: rest) (referent :: kept) dangling
  | freed {referent : Referent × Nat} {rest kept : References} {dangling : Bool}
      (isGone : gone referent.2) (others : LeftBehind gone live rest kept dangling) :
      LeftBehind gone live (referent :: rest) kept true

/-- What is told of the block of an object: its content without pointers, its size and whether a
bucket refers to a freed block. -/
structure Label where
  object : ImObject Nat
  capacity : Nat
  dangling : Bool

/-- The invariants of hash tables and vectors on their own block. -/
def Formed : ImObject Nat → Prop
  | .hashtable table => table.Inv (imOps Nat)
  | .vector vector => Sized vector ∧ vector.numberOfBuckets < 4294967296
  | _ => False

/-- The block of a hash table or a vector.  Its attached values are in the used part of the attached
area, and it is as long as its object, or as a copy of it. -/
structure IsObject (gone : Nat → Prop) (kind : Kind) (block : Block) (label : Label)
    (live kept : References) : Prop where
  kind_eq : kindOf block.content = some kind
  formed : Formed block.content
  proper : ∀ bucket ∈ parts block.content, ProperSize bucket
  inside : ∀ bucket ∈ usedParts block.content,
    ∀ access ∈ attachedAccesses block.content bucket, access.1 + access.2 ≤
      attachedBase block.content + (attachedOf block.content).attachedOffset
  capacity_eq : block.capacity = block.content.size ∨
    0 < bucketCount block.content ∧ block.capacity = copySize block.content
  object_eq : label.object = forget block.content
  label_capacity : label.capacity = block.capacity
  live_eq : (usedParts block.content).filterMap reference = live
  left : LeftBehind gone live ((unusedParts block.content).filterMap reference) kept label.dangling

/-- The blocks that references lead to. -/
def IsNode (gone : Nat → Prop) : Referent → Block → Label → References → References → Prop
  | .bytes length, block, label, live, kept =>
      (∃ bytes : List UInt8, bytes.length = length ∧ block = ⟨.bytes bytes, length⟩) ∧
        label = ⟨block.content, block.capacity, false⟩ ∧ live = [] ∧ kept = []
  | .object kind, block, label, live, kept => IsObject gone kind block label live kept

/-- References stand for trees of strings, blocks and objects. -/
abbrev StandsFor (gone : Nat → Prop) (h : Heap Block) (references : References)
    (footprint : Set Nat) (trees : Forest Label) : Prop :=
  Stands (IsNode gone) h references footprint trees

/-- The duplication can walk over the buckets of the object: there are some, none has an attached
object and none dangles. -/
structure Label.Sound (label : Label) : Prop where
  undangling : label.dangling = false
  positive : 0 < bucketCount label.object
  detached : ∀ bucket ∈ parts label.object, ¬ IsAttachedObject bucket.value

/-- All objects are sound and nested at most so deep. -/
def SoundWithin : Forest Label → Nat → Prop
  | .nil, _ => True
  | .node label live kept rest, depth =>
      (kindOf label.object = none ∨
        0 < depth ∧ label.Sound ∧ SoundWithin live (depth - 1) ∧ SoundWithin kept (depth - 1)) ∧
      SoundWithin rest depth

/-- The same trees in other blocks: at every second level, starting from the roots when `short`,
the blocks are copies. -/
inductive Twins : Bool → Forest Label → Forest Label → Prop
  | nil {short : Bool} : Twins short .nil .nil
  | node {short : Bool} {label label' : Label} {live live' kept kept' rest rest' : Forest Label}
      (object_eq : label'.object = label.object)
      (capacity_eq : label'.capacity = if short then copySize label.object else label.capacity)
      (lives : Twins (!short) live live') (rests : Twins short rest rest') :
      Twins short (.node label live kept rest) (.node label' live' kept' rest')

section Forests

variable {short : Bool} {trees trees₁ trees₂ : Forest Label} {depth : Nat}

@[simp] theorem soundWithin_append :
    SoundWithin (trees₁.append trees₂) depth ↔
      SoundWithin trees₁ depth ∧ SoundWithin trees₂ depth := by
  induction trees₁ with
  | nil => simp [Forest.append, SoundWithin]
  | node label live kept rest _ _ ih => simp [Forest.append, SoundWithin, ih, and_assoc]

theorem Twins.trans (first : Twins short trees trees₁) (second : Twins short trees₁ trees₂) :
    Twins short trees trees₂ := by
  induction first generalizing trees₂ with
  | nil => exact second
  | @node short label label' _ _ _ _ _ _ object_eq capacity_eq _ _ livesIH restsIH =>
      cases second with
      | node object_eq' capacity_eq' lives' rests' =>
          refine .node (object_eq'.trans object_eq) ?_ (livesIH lives') (restsIH rests')
          rw [capacity_eq', capacity_eq, object_eq]
          cases short <;> rfl

theorem Twins.append {others others' : Forest Label} (first : Twins short trees trees₁)
    (second : Twins short others others') :
    Twins short (trees.append others) (trees₁.append others') := by
  induction first with
  | nil => exact second
  | node object_eq capacity_eq lives _ _ ih => exact .node object_eq capacity_eq lives (ih second)

theorem Twins.split (twins : Twins short trees (trees₁.append trees₂)) :
    ∃ before before', trees = before.append before' ∧ Twins short before trees₁ ∧
      Twins short before' trees₂ := by
  induction trees₁ generalizing trees with
  | nil => exact ⟨.nil, trees, rfl, .nil, twins⟩
  | node label live kept rest _ _ ih =>
      cases twins with
      | @node _ label₀ _ live₀ _ kept₀ _ _ _ object_eq capacity_eq lives rests =>
          obtain ⟨before, before', rfl, here, there⟩ := ih rests
          exact ⟨.node label₀ live₀ kept₀ before, before', rfl,
            .node object_eq capacity_eq lives here, there⟩

end Forests

/-! ## Copying one bucket -/

/-- What `copy_bucket` does with the object of a bucket of proper size. -/
def copyReferent (duplicate : Kind → Nat → HeapM Block Nat) : Referent → Nat → HeapM Block Nat
  | .bytes length, address => copyBytes length length address
  | .object kind, address => duplicate kind address

/-- The bucket with another pointer. -/
def redirect (bucket : ImVectorBucket Nat) (address : Nat) : ImVectorBucket Nat :=
  match bucket.value with
  | .externalString .. => { bucket with value := .externalString bucket.valueLength address }
  | .externalBlock .. => { bucket with value := .externalBlock bucket.valueLength address }
  | .externalNested .. => { bucket with value := .externalNested bucket.valueLength address }
  | .externalVector .. => { bucket with value := .externalVector bucket.valueLength address }
  | _ => bucket

section Bucket

variable {duplicate : Kind → Nat → HeapM Block Nat} {bucket : ImVectorBucket Nat}
variable {referent : Referent × Nat}

theorem copyBucket_of_reference (proper : ProperSize bucket)
    (refers : reference bucket = some referent) :
    copyBucket duplicate bucket = (do
      let address ← copyReferent duplicate referent.1 referent.2
      pure (redirect bucket address)) := by
  obtain ⟨length, value⟩ := bucket
  cases value with
  | externalString objectSize address =>
      obtain rfl : objectSize = length := proper
      cases refers
      rfl
  | externalBlock objectSize address =>
      obtain rfl : objectSize = length := proper
      cases refers
      rfl
  | externalNested objectSize address => cases refers; rfl
  | externalVector objectSize address => cases refers; rfl
  | _ => cases refers

theorem copyBucket_of_none (plain : reference bucket = none)
    (detached : ¬ IsAttachedObject bucket.value) :
    copyBucket duplicate bucket = pure bucket := by
  obtain ⟨length, value⟩ := bucket
  cases value <;> simp_all [copyBucket, reference, IsAttachedObject]

theorem copyBucket_of_attached (attached : IsAttachedObject bucket.value) :
    copyBucket duplicate bucket = stuck := by
  obtain ⟨length, value⟩ := bucket
  cases value <;> simp_all [copyBucket, IsAttachedObject]

theorem not_isAttachedObject (refers : reference bucket = some referent) :
    ¬ IsAttachedObject bucket.value := by
  obtain ⟨length, value⟩ := bucket
  cases value <;> simp_all [reference, IsAttachedObject]

theorem redirect_spec (refers : reference bucket = some referent) (address : Nat) :
    reference (redirect bucket address) = some (referent.1, address) ∧
      Rewritten bucket (redirect bucket address) := by
  obtain ⟨length, value⟩ := bucket
  cases value with
  | externalString => cases refers; exact ⟨rfl, rfl, rfl⟩
  | externalBlock => cases refers; exact ⟨rfl, rfl, rfl⟩
  | externalNested => cases refers; exact ⟨rfl, rfl, trivial⟩
  | externalVector => cases refers; exact ⟨rfl, rfl, trivial⟩
  | _ => cases refers

end Bucket

section Copies

variable {gone : Nat → Prop} {fuel : Nat} {h h₁ h₂ : Heap Block}
variable {footprint others : Set Nat} {trees : Forest Label}

/-- The heap has the freed blocks. -/
structure Valid (gone : Nat → Prop) (h : Heap Block) : Prop where
  bounded : h.Bounded
  freed : ∀ x, gone x → h.Freed x

theorem Valid.changes (valid : Valid gone h) (changes : Changes h h₁ footprint) : Valid gone h₁ :=
  ⟨changes.bounded, fun x isGone => changes.freed (valid.freed x isGone)⟩

/-- Trees have become two, in their blocks and in new ones. -/
def Doubled (gone : Nat → Prop) (fuel : Nat) (h h' : Heap Block) (footprint : Set Nat)
    (lefts rights : References) (trees : Forest Label) : Prop :=
  ∃ first second trees₁ trees₂, StandsFor gone h' lefts first trees₁ ∧
    StandsFor gone h' rights second trees₂ ∧ Disjoint first second ∧
    Stems h footprint (first ∪ second) ∧ Twins false trees trees₁ ∧ Twins true trees trees₂ ∧
    SoundWithin trees₁ fuel ∧ SoundWithin trees₂ fuel

/-- A way to duplicate objects that are nested at most so deep. -/
structure CopySpec (gone : Nat → Prop) (duplicate : Kind → Nat → HeapM Block Nat) (fuel : Nat) :
    Prop where
  stuck : ∀ {h : Heap Block} {kind : Kind} {address : Nat}, h.blocks address = none →
    duplicate kind address h = none
  copies : ∀ {h : Heap Block} {kind : Kind} {address : Nat} {footprint : Set Nat}
    {trees : Forest Label}, Valid gone h →
    StandsFor gone h [(.object kind, address)] footprint trees →
    Yields (duplicate kind address h) (SoundWithin trees fuel) fun copy h' =>
      Changes h h' footprint ∧ Doubled gone fuel h h' footprint [(.object kind, address)]
        [(.object kind, copy)] trees

theorem Doubled.nil (gone : Nat → Prop) (fuel : Nat) (h h' : Heap Block) :
    Doubled gone fuel h h' ∅ [] [] .nil :=
  ⟨∅, ∅, .nil, .nil, .nil, .nil, by simp, by simp [Stems], .nil, .nil, trivial, trivial⟩

/-- Doubling some trees and then others. -/
theorem Doubled.append {lefts rights lefts' rights' : References} {trees' : Forest Label}
    {touched touched' : Set Nat} (valid : Valid gone h) (changes : Changes h h₁ touched)
    (doubled : Doubled gone fuel h h₁ footprint lefts rights trees)
    (changes' : Changes h₁ h₂ touched') (sub : others ⊆ touched')
    (doubled' : Doubled gone fuel h₁ h₂ others lefts' rights' trees')
    (apart : Disjoint footprint touched')
    (allocated : ∀ x ∈ touched', ∃ content, h.blocks x = some content) :
    Doubled gone fuel h h₂ (footprint ∪ others) (lefts ++ lefts') (rights ++ rights')
      (trees.append trees') := by
  obtain ⟨left, right, trees₁, trees₂, leftStands, rightStands, between, stems, twins₁, twins₂,
    sound₁, sound₂⟩ := doubled
  obtain ⟨left', right', trees₁', trees₂', leftStands', rightStands', between', stems', twins₁',
    twins₂', sound₁', sound₂'⟩ := doubled'
  have away : Disjoint (left ∪ right) touched' :=
    Changes.disjoint_of_stems valid.bounded stems apart allocated
  have found : ∀ x ∈ left ∪ right, ∃ content, h₁.blocks x = some content := by
    rintro x (inLeft | inRight)
    · exact leftStands.allocated x inLeft
    · exact rightStands.allocated x inRight
  have separate : Disjoint (left' ∪ right') (left ∪ right) :=
    Changes.disjoint_of_stems changes.bounded stems' (away.mono_right sub).symm found
  simp only [Set.disjoint_union_left, Set.disjoint_union_right] at away separate
  refine ⟨left ∪ left', right ∪ right', _, _,
    (leftStands.frame changes.bounded changes' away.1).append leftStands' separate.1.1.symm,
    (rightStands.frame changes.bounded changes' away.2).append rightStands' separate.2.2.symm,
    ?_, ?_, twins₁.append twins₁', twins₂.append twins₂',
    soundWithin_append.mpr ⟨sound₁, sound₁'⟩, soundWithin_append.mpr ⟨sound₂, sound₂'⟩⟩
  · simp only [Set.disjoint_union_left, Set.disjoint_union_right]
    exact ⟨⟨between, separate.2.1⟩, separate.1.2.symm, between'⟩
  · rintro x ((inLeft | inLeft') | (inRight | inRight'))
    · exact (stems x (Or.inl inLeft)).imp_left Or.inl
    · exact (stems' x (Or.inl inLeft')).imp Or.inr changes.next_le.trans
    · exact (stems x (Or.inr inRight)).imp_left Or.inl
    · exact (stems' x (Or.inr inRight')).imp Or.inr changes.next_le.trans

variable {duplicate : Kind → Nat → HeapM Block Nat}

theorem CopySpec.copyReferent_freed (spec : CopySpec gone duplicate fuel)
    {referent : Referent × Nat} (freed : h.blocks referent.2 = none) :
    copyReferent duplicate referent.1 referent.2 h = none := by
  obtain ⟨sort, address⟩ := referent
  cases sort with
  | bytes length =>
      change ((h.blocks address).map _).bind _ = none
      rw [freed]
      rfl
  | object kind => exact spec.stuck freed

theorem copyBytes_eq {length address : Nat} {bytes : List UInt8} (length_eq : bytes.length = length)
    (found : h.blocks address = some ⟨.bytes bytes, length⟩) :
    copyBytes length length address h = some (h.next, h.alloc ⟨.bytes bytes, length⟩) := by
  have whole : bytes.take length ++ List.replicate (length - length) 0 = bytes := by
    rw [Nat.sub_self, List.replicate_zero, List.append_nil, List.take_of_length_le length_eq.le]
  rw [copyBytes, bind_read found]
  simp only [length_eq, le_refl, and_self, if_true, whole]
  rfl

/-- The object of a bucket is doubled, whatever it is. -/
theorem CopySpec.yields_copyReferent (spec : CopySpec gone duplicate fuel) (valid : Valid gone h)
    {referent : Referent × Nat} (stands : StandsFor gone h [referent] footprint trees) :
    Yields (copyReferent duplicate referent.1 referent.2 h) (SoundWithin trees fuel) fun copy h' =>
      Changes h h' footprint ∧
        Doubled gone fuel h h' footprint [referent] [(referent.1, copy)] trees := by
  obtain ⟨sort, address⟩ := referent
  cases sort with
  | object kind => exact spec.copies valid stands
  | bytes length =>
      cases stands with
      | @cons _ _ _ label _ _ _ _ _ _ _ _ _ found isNode lives keeps outside apart rests away =>
          obtain ⟨⟨bytes, length_eq, rfl⟩, rfl, rfl, rfl⟩ := isNode
          cases lives
          cases keeps
          cases rests
          have less := valid.bounded.lt found
          have allocated := Changes.alloc valid.bounded ⟨.bytes bytes, length⟩
          have leaf {x : Nat} {heap : Heap Block}
              (here : heap.blocks x = some ⟨.bytes bytes, length⟩) :
              StandsFor gone heap [(.bytes length, x)] (insert x (∅ ∪ ∅) ∪ ∅)
                (.node ⟨.bytes bytes, length, false⟩ .nil .nil .nil) :=
            .cons here ⟨⟨bytes, length_eq, rfl⟩, rfl, rfl, rfl⟩ .nil .nil (by simp) (by simp) .nil
              (by simp)
          have sound : SoundWithin (.node ⟨.bytes bytes, length, false⟩ .nil .nil .nil) fuel :=
            ⟨Or.inl rfl, trivial⟩
          rw [copyReferent, copyBytes_eq length_eq found]
          refine ⟨sound, allocated.mono (Set.empty_subset _) ?_, _, _, _, _, leaf ?_,
            leaf (h.alloc_self _), ?_, ?_, .node rfl rfl .nil .nil, .node rfl length_eq.symm .nil .nil,
            sound, sound⟩
          · simpa using ⟨_, found⟩
          · rw [h.alloc_other _ less.ne, found]
          · simpa using less.ne
          · simp [Stems]

/-! ## The loop over the buckets in use -/

variable {address capacity i count : Nat} {object : ImObject Nat} {bucket : ImVectorBucket Nat}
variable {buckets : List (ImVectorBucket Nat)}

theorem copyBuckets_succ (found : h.blocks address = some ⟨withParts object buckets, capacity⟩)
    (length_eq : buckets.length = (parts object).length) (here : buckets[i]? = some bucket) :
    copyBuckets duplicate address (count + 1) i h =
      ((copyBucket duplicate bucket >>= storeBucket address i) >>= fun _ =>
        copyBuckets duplicate address count (i + 1)) h := by
  rw [copyBuckets, bind_read found]
  simp only [parts_withParts length_eq, here]

theorem storeBucket_eq (found : h.blocks address = some ⟨withParts object buckets, capacity⟩)
    (length_eq : buckets.length = (parts object).length) (bucket : ImVectorBucket Nat) :
    storeBucket address i bucket h =
      some ((), h.write address ⟨withParts object (buckets.set i bucket), capacity⟩) := by
  rw [storeBucket, bind_read found]
  simp only [parts_withParts length_eq, withParts_withParts length_eq]
  rfl

/-- A bucket is written when its object has been copied elsewhere. -/
theorem yields_store {sound : Prop} {post : Nat → Heap Block → Prop} {referent : Referent × Nat}
    (valid : Valid gone h) (found : h.blocks address = some ⟨withParts object buckets, capacity⟩)
    (length_eq : buckets.length = (parts object).length) (proper : ProperSize bucket)
    (refers : reference bucket = some referent) (outside : address ∉ footprint)
    (copied : Yields (copyReferent duplicate referent.1 referent.2 h) sound fun copy h' =>
      Changes h h' footprint ∧ post copy h') :
    Yields ((copyBucket duplicate bucket >>= storeBucket address i) h) sound fun _ h' =>
      Changes h h' (insert address footprint) ∧ ∃ copy h₁, post copy h₁ ∧
        h' = h₁.write address
          ⟨withParts object (buckets.set i (redirect bucket copy)), capacity⟩ := by
  rw [copyBucket_of_reference proper refers, bind_assoc, ← and_true sound]
  refine copied.bind fun copy h₁ ⟨changes, holds⟩ _ => ?_
  have same : h₁.blocks address = some ⟨withParts object buckets, capacity⟩ := by
    rw [changes.same address (valid.bounded.lt found) outside, found]
  rw [pure_bind, storeBucket_eq same length_eq]
  exact ⟨trivial, changes.and_write valid.bounded found outside _, copy, h₁, holds, rfl⟩

/-- A bucket without an external object is written as it is. -/
theorem yields_store_none (found : h.blocks address = some ⟨withParts object buckets, capacity⟩)
    (length_eq : buckets.length = (parts object).length) (here : buckets[i]? = some bucket)
    (plain : reference bucket = none) :
    Yields ((copyBucket duplicate bucket >>= storeBucket address i) h)
      (¬ IsAttachedObject bucket.value) fun _ h' =>
        h' = h.write address ⟨withParts object buckets, capacity⟩ := by
  by_cases attached : IsAttachedObject bucket.value
  · rw [copyBucket_of_attached attached]
    exact not_not.mpr attached
  · obtain ⟨inside, rfl⟩ := List.getElem?_eq_some_iff.mp here
    rw [copyBucket_of_none plain attached, pure_bind, storeBucket_eq found length_eq,
      List.set_getElem_self]
    exact ⟨attached, rfl⟩

theorem Doubled.write {lefts rights : References}
    (valid : Valid gone h) (doubled : Doubled gone fuel h h₁ footprint lefts rights trees)
    {block : Block} (found : h.blocks address = some block) (outside : address ∉ footprint)
    (content : Block) : Doubled gone fuel h (h₁.write address content) footprint lefts rights trees := by
  obtain ⟨left, right, trees₁, trees₂, leftStands, rightStands, between, stems, twins⟩ := doubled
  have away := stems.notMem valid.bounded found outside
  rw [Set.mem_union, not_or] at away
  exact ⟨left, right, trees₁, trees₂, leftStands.write away.1 content,
    rightStands.write away.2 content, between, stems, twins⟩

/-- The loop over buckets whose objects are apart. -/
theorem CopySpec.yields_used (spec : CopySpec gone duplicate fuel)
    {todo before after : List (ImVectorBucket Nat)} (valid : Valid gone h)
    (found : h.blocks address = some ⟨withParts object (before ++ (todo ++ after)), capacity⟩)
    (length_eq : (before ++ (todo ++ after)).length = (parts object).length)
    (proper : ∀ bucket ∈ todo, ProperSize bucket)
    (stands : StandsFor gone h (todo.filterMap reference) footprint trees)
    (outside : address ∉ footprint) :
    Yields (copyBuckets duplicate address todo.length before.length h)
      (SoundWithin trees fuel ∧ ∀ bucket ∈ todo, ¬ IsAttachedObject bucket.value) fun _ h' =>
        ∃ new, List.Forall₂ Rewritten todo new ∧
          h'.blocks address = some ⟨withParts object (before ++ (new ++ after)), capacity⟩ ∧
          Changes h h' (insert address footprint) ∧
          Doubled gone fuel h h' footprint (todo.filterMap reference) (new.filterMap reference)
            trees := by
  induction todo generalizing before h footprint trees with
  | nil =>
      cases stands
      have allocated : ∀ x ∈ insert address (∅ : Set Nat), ∃ content, h.blocks x = some content := by
        simpa using ⟨_, found⟩
      exact ⟨⟨trivial, by simp⟩, [], .nil, found,
        (Changes.refl valid.bounded).mono (Set.empty_subset _) allocated, .nil gone fuel h h⟩
  | cons bucket todo ih =>
      have here : (before ++ (bucket :: todo ++ after))[before.length]? = some bucket := by simp
      have moved (bucket' : ImVectorBucket Nat) :
          (before ++ (bucket :: todo ++ after)).set before.length bucket' =
            (before ++ [bucket']) ++ (todo ++ after) := by simp
      have length_eq' (bucket' : ImVectorBucket Nat) :
          ((before ++ [bucket']) ++ (todo ++ after)).length = (parts object).length := by
        rw [← length_eq]
        simp
      have next (bucket' : ImVectorBucket Nat) :
          before.length + 1 = (before ++ [bucket']).length := by simp
      rw [List.forall_mem_cons] at proper
      have allocated : ∀ x ∈ insert address footprint, ∃ content, h.blocks x = some content := by
        rintro x (rfl | inside)
        · exact ⟨_, found⟩
        · exact stands.allocated x inside
      rw [List.length_cons, copyBuckets_succ found length_eq here]
      rw [List.forall_mem_cons]
      cases refers : reference bucket with
      | none =>
          rw [List.filterMap_cons_none refers] at stands ⊢
          rw [and_left_comm]
          refine (yields_store_none found length_eq here refers).bind fun _ h₁ stored _ => ?_
          subst stored
          have changes := Changes.write valid.bounded found
            ⟨withParts object (before ++ (bucket :: todo ++ after)), capacity⟩
          have found' : (h.write address
              ⟨withParts object (before ++ (bucket :: todo ++ after)), capacity⟩).blocks address =
              some ⟨withParts object ((before ++ [bucket]) ++ (todo ++ after)), capacity⟩ := by
            simp
          rw [next bucket]
          refine (ih (valid.changes changes) found' (length_eq' bucket) proper.2
            (stands.write outside _) outside).imp Iff.rfl ?_
          rintro _ h' - ⟨new, rewritten, stored, changes', doubled⟩
          refine ⟨bucket :: new, .cons ⟨rfl, proper.1⟩ rewritten, by simpa using stored,
            (changes.mono (by simp) allocated).trans changes' fun x inside => Or.inl inside, ?_⟩
          rw [List.filterMap_cons_none refers]
          exact doubled
      | some referent =>
          rw [List.filterMap_cons_some refers] at stands ⊢
          have parted : StandsFor gone h ([referent] ++ todo.filterMap reference) footprint trees :=
            stands
          obtain ⟨first, others, tree, rest, treeStands, restStands, apart, rfl, rfl⟩ := parted.split
          rw [Set.mem_union, not_or] at outside
          have sound_iff : SoundWithin (tree.append rest) fuel ∧ (¬ IsAttachedObject bucket.value ∧
              ∀ bucket ∈ todo, ¬ IsAttachedObject bucket.value) ↔
              SoundWithin tree fuel ∧ (SoundWithin rest fuel ∧
                ∀ bucket ∈ todo, ¬ IsAttachedObject bucket.value) := by
            simp [not_isAttachedObject refers, and_assoc]
          rw [sound_iff]
          refine (yields_store valid found length_eq proper.1 refers outside.1
            (spec.yields_copyReferent valid treeStands)).bind ?_
          rintro _ h₂ ⟨changes, copy, h₁, doubled, rfl⟩ -
          obtain ⟨refers', rewritten⟩ := redirect_spec refers copy
          have away : Disjoint others (insert address first) := by
            rw [Set.disjoint_insert_right]
            exact ⟨outside.2, apart.symm⟩
          rw [moved] at changes ⊢
          rw [next (redirect bucket copy)]
          refine (ih (valid.changes changes) (Heap.write_self ..) (length_eq' _) proper.2
            (restStands.frame valid.bounded changes away) outside.2).imp Iff.rfl ?_
          rintro _ h' - ⟨new, rewritten', stored, changes', doubled'⟩
          refine ⟨redirect bucket copy :: new, .cons rewritten rewritten', by simpa using stored,
            (changes.mono (Set.insert_subset_insert Set.subset_union_left) allocated).trans changes'
              fun x inside => Or.inl (Set.insert_subset_insert Set.subset_union_right inside), ?_⟩
          rw [List.filterMap_cons_some refers']
          refine .append valid changes (doubled.write valid found outside.1 _) changes'
            (Set.subset_insert _ _) doubled' ?_ ?_
          · rw [Set.disjoint_insert_right]
            exact ⟨outside.1, apart⟩
          · exact fun x inside => allocated x (Set.insert_subset_insert Set.subset_union_right inside)

/-! ## The loop over the buckets left behind -/

/-- Trees have been copied, possibly not for the first time. -/
def Again (gone : Nat → Prop) (fuel : Nat) (h h' : Heap Block) (footprint : Set Nat)
    (old fresh : References) (trees : Forest Label) : Prop :=
  ∃ first second trees₁ trees₂, StandsFor gone h' old first trees₁ ∧
    StandsFor gone h' fresh second trees₂ ∧ Disjoint first second ∧
    Stems h footprint (first ∪ second) ∧
    (∀ earlier, Twins false earlier trees → Twins false earlier trees₁) ∧
    SoundWithin trees₁ fuel ∧ SoundWithin trees₂ fuel

theorem Doubled.again {old fresh : References}
    (doubled : Doubled gone fuel h h₁ footprint old fresh trees) :
    Again gone fuel h h₁ footprint old fresh trees := by
  obtain ⟨first, second, trees₁, trees₂, oldStands, freshStands, between, stems, twins, -, sound₁,
    sound₂⟩ := doubled
  exact ⟨first, second, trees₁, trees₂, oldStands, freshStands, between, stems,
    fun earlier before => before.trans twins, sound₁, sound₂⟩

/-- One of several trees is copied. -/
theorem CopySpec.yields_alias (spec : CopySpec gone duplicate fuel) (valid : Valid gone h)
    {live : References} {referent : Referent × Nat}
    (stands : StandsFor gone h live footprint trees) (member : referent ∈ live)
    (sound : SoundWithin trees fuel) :
    Yields (copyReferent duplicate referent.1 referent.2 h) True fun copy h' =>
      Changes h h' footprint ∧
        Again gone fuel h h' footprint live [(referent.1, copy)] trees := by
  obtain ⟨before, after, rfl⟩ := List.append_of_mem member
  obtain ⟨here, there, these, those, hereStands, thereStands, apart, rfl, rfl⟩ := stands.split
  have parted : StandsFor gone h ([referent] ++ after) there those := thereStands
  obtain ⟨mid, last, tree, rest, treeStands, restStands, apart', rfl, rfl⟩ := parted.split
  simp only [soundWithin_append, Set.disjoint_union_right] at sound apart
  have allocated := stands.allocated
  refine (spec.yields_copyReferent valid treeStands).imp (by simp [sound]) ?_
  rintro copy h' - ⟨changes, left, right, tree₁, tree₂, leftStands, rightStands, between, stems,
    twins, -, sound₁, sound₂⟩
  have away : Disjoint (left ∪ right) (here ∪ last) := by
    refine Changes.disjoint_of_stems valid.bounded stems ?_ fun x inside => allocated x ?_
    · rw [Set.disjoint_union_right]
      exact ⟨apart.1.symm, apart'⟩
    · rcases inside with inside | inside <;> simp [inside]
  simp only [Set.disjoint_union_left, Set.disjoint_union_right] at away
  have whole : StandsFor gone h' (before ++ ([referent] ++ after)) (here ∪ (left ∪ last))
      (these.append (tree₁.append rest)) := by
    refine (hereStands.frame valid.bounded changes apart.1).append
      (leftStands.append (restStands.frame valid.bounded changes apart'.symm) away.2.1) ?_
    rw [Set.disjoint_union_right]
    exact ⟨away.1.1.symm, apart.2⟩
  refine ⟨changes.mono (by intro x inside; simp [inside]) allocated, _, _, _, _, whole, rightStands,
    ?_, ?_, ?_, ?_, sound₂⟩
  · simp only [Set.disjoint_union_left]
    exact ⟨away.1.2.symm, between, away.2.2.symm⟩
  · rintro x ((inside | inside | inside) | inside)
    · exact Or.inl (Or.inl inside)
    · exact (stems x (Or.inl inside)).imp_left fun inside => Or.inr (Or.inl inside)
    · exact Or.inl (Or.inr (Or.inr inside))
    · exact (stems x (Or.inr inside)).imp_left fun inside => Or.inr (Or.inl inside)
  · intro earlier before
    obtain ⟨first, second, rfl, firstTwins, secondTwins⟩ := before.split
    obtain ⟨second, third, rfl, secondTwins, thirdTwins⟩ := secondTwins.split
    exact firstTwins.append ((secondTwins.trans twins).append thirdTwins)
  · simp [sound, sound₁]

/-- The state of the loop over the buckets left behind: the trees in use, the trees still to be
copied, those that have been copied and the copies. -/
def Stage (gone : Nat → Prop) (fuel : Nat) (h h' : Heap Block) (footprint : Set Nat)
    (live rest done fresh : References) (earlier restTrees : Forest Label) : Prop :=
  ∃ used unused kept new liveTrees doneTrees freshTrees,
    StandsFor gone h' live used liveTrees ∧ StandsFor gone h' rest unused restTrees ∧
    StandsFor gone h' done kept doneTrees ∧ StandsFor gone h' fresh new freshTrees ∧
    Disjoint used unused ∧ Disjoint (used ∪ unused) kept ∧ Disjoint (used ∪ unused ∪ kept) new ∧
    Stems h footprint (used ∪ unused ∪ kept ∪ new) ∧ Twins false earlier liveTrees ∧
    SoundWithin liveTrees fuel ∧ SoundWithin doneTrees fuel ∧ SoundWithin freshTrees fuel

section Stages

variable {live rest done fresh : References} {earlier restTrees : Forest Label}
variable {referent : Referent × Nat}

theorem Stage.write (stage : Stage gone fuel h h₁ footprint live rest done fresh earlier restTrees)
    (valid : Valid gone h) {block : Block} (found : h.blocks address = some block)
    (outside : address ∉ footprint) (content : Block) :
    Stage gone fuel h (h₁.write address content) footprint live rest done fresh earlier
      restTrees := by
  obtain ⟨used, unused, kept, new, liveTrees, doneTrees, freshTrees, liveStands, restStands,
    doneStands, freshStands, apart₁, apart₂, apart₃, stems, twins⟩ := stage
  have away := stems.notMem valid.bounded found outside
  simp only [Set.mem_union, not_or] at away
  exact ⟨used, unused, kept, new, liveTrees, doneTrees, freshTrees,
    liveStands.write away.1.1.1 content, restStands.write away.1.1.2 content,
    doneStands.write away.1.2 content, freshStands.write away.2 content, apart₁, apart₂, apart₃,
    stems, twins⟩

/-- A bucket left behind refers to an object in use. -/
theorem Stage.yields_alias (spec : CopySpec gone duplicate fuel) (valid : Valid gone h₁)
    (next_le : h.next ≤ h₁.next)
    (stage : Stage gone fuel h h₁ footprint live rest done fresh earlier restTrees)
    (member : referent ∈ live) :
    ∃ touched, Stems h footprint touched ∧
      Yields (copyReferent duplicate referent.1 referent.2 h₁) True fun copy h' =>
        Changes h₁ h' touched ∧ Stage gone fuel h h' footprint live rest done
          (fresh ++ [(referent.1, copy)]) earlier restTrees := by
  obtain ⟨used, unused, kept, new, liveTrees, doneTrees, freshTrees, liveStands, restStands,
    doneStands, freshStands, apart₁, apart₂, apart₃, stems, twins, liveSound, doneSound,
    freshSound⟩ := stage
  simp only [Set.disjoint_union_left] at apart₂ apart₃
  have fromUsed : Stems h footprint used := fun x inside => stems x (by simp [inside])
  refine ⟨used, fromUsed, (spec.yields_alias valid liveStands member liveSound).imp Iff.rfl ?_⟩
  rintro copy h' - ⟨changes, first, second, trees₁, trees₂, liveStands', copyStands, between, stems',
    twins', sound₁, sound₂⟩
  obtain ⟨restStands', restApart⟩ := restStands.beside valid.bounded changes apart₁.symm stems'
  obtain ⟨doneStands', doneApart⟩ := doneStands.beside valid.bounded changes apart₂.1.symm stems'
  obtain ⟨freshStands', freshApart⟩ :=
    freshStands.beside valid.bounded changes apart₃.1.1.symm stems'
  simp only [Set.disjoint_union_right] at restApart doneApart freshApart
  refine ⟨changes, first, unused, kept, new ∪ second, trees₁, doneTrees, freshTrees.append trees₂,
    liveStands', restStands', doneStands', freshStands'.append copyStands freshApart.2,
    restApart.1.symm, ?_, ?_, ?_, twins' _ twins, sound₁, doneSound, by simp [freshSound, sound₂]⟩
  · rw [Set.disjoint_union_left]
    exact ⟨doneApart.1.symm, apart₂.2⟩
  · simp only [Set.disjoint_union_left, Set.disjoint_union_right]
    exact ⟨⟨⟨freshApart.1.symm, apart₃.1.2⟩, apart₃.2⟩, ⟨between, restApart.2⟩, doneApart.2⟩
  · have copied := fromUsed.trans stems' next_le
    rintro x (((inside | inside) | inside) | (inside | inside))
    · exact copied x (Or.inl inside)
    · exact stems x (by simp [inside])
    · exact stems x (by simp [inside])
    · exact stems x (by simp [inside])
    · exact copied x (Or.inr inside)

/-- A bucket left behind refers to an object that nobody else knows of. -/
theorem Stage.yields_keep (spec : CopySpec gone duplicate fuel) (valid : Valid gone h₁)
    (next_le : h.next ≤ h₁.next)
    (stage : Stage gone fuel h h₁ footprint live (referent :: rest) done fresh earlier restTrees) :
    ∃ touched tree trees, restTrees = tree.append trees ∧ Stems h footprint touched ∧
      Yields (copyReferent duplicate referent.1 referent.2 h₁) (SoundWithin tree fuel) fun copy h' =>
        Changes h₁ h' touched ∧ Stage gone fuel h h' footprint live rest (done ++ [referent])
          (fresh ++ [(referent.1, copy)]) earlier trees := by
  obtain ⟨used, unused, kept, new, liveTrees, doneTrees, freshTrees, liveStands, restStands,
    doneStands, freshStands, apart₁, apart₂, apart₃, stems, twins, liveSound, doneSound,
    freshSound⟩ := stage
  have parted : StandsFor gone h₁ ([referent] ++ rest) unused restTrees := restStands
  obtain ⟨mid, last, tree, trees, treeStands, lastStands, apart, rfl, rfl⟩ := parted.split
  simp only [Set.disjoint_union_left, Set.disjoint_union_right] at apart₁ apart₂ apart₃
  have fromMid : Stems h footprint mid := fun x inside => stems x (by simp [inside])
  refine ⟨mid, tree, trees, rfl, fromMid,
    (spec.yields_copyReferent valid treeStands).imp Iff.rfl ?_⟩
  rintro copy h' - ⟨changes, first, second, trees₁, trees₂, treeStands', copyStands, between, stems',
    -, -, sound₁, sound₂⟩
  obtain ⟨liveStands', liveApart⟩ := liveStands.beside valid.bounded changes apart₁.1 stems'
  obtain ⟨lastStands', restApart⟩ := lastStands.beside valid.bounded changes apart.symm stems'
  obtain ⟨doneStands', doneApart⟩ := doneStands.beside valid.bounded changes apart₂.2.1.symm stems'
  obtain ⟨freshStands', freshApart⟩ :=
    freshStands.beside valid.bounded changes apart₃.1.2.1.symm stems'
  simp only [Set.disjoint_union_right] at liveApart restApart doneApart freshApart
  refine ⟨changes, used, last, kept ∪ first, new ∪ second, liveTrees, doneTrees.append trees₁,
    freshTrees.append trees₂, liveStands', lastStands', doneStands'.append treeStands' doneApart.1,
    freshStands'.append copyStands freshApart.2, apart₁.2, ?_, ?_, ?_, twins, liveSound,
    by simp [doneSound, sound₁], by simp [freshSound, sound₂]⟩
  · simp only [Set.disjoint_union_left, Set.disjoint_union_right]
    exact ⟨⟨apart₂.1, apart₂.2.2⟩, liveApart.1, restApart.1⟩
  · simp only [Set.disjoint_union_left, Set.disjoint_union_right]
    exact ⟨⟨⟨apart₃.1.1, apart₃.1.2.2⟩, apart₃.2, freshApart.1.symm⟩,
      ⟨liveApart.2, restApart.2⟩, doneApart.2, between⟩
  · have copied := fromMid.trans stems' next_le
    rintro x (((inside | inside) | (inside | inside)) | (inside | inside))
    · exact stems x (by simp [inside])
    · exact stems x (by simp [inside])
    · exact stems x (by simp [inside])
    · exact copied x (Or.inl inside)
    · exact stems x (by simp [inside])
    · exact copied x (Or.inr inside)

/-- The loop has rewritten the buckets left behind and copied what they refer to. -/
def Ended (gone : Nat → Prop) (fuel : Nat) (h h' : Heap Block) (footprint : Set Nat)
    (address capacity : Nat) (object : ImObject Nat) (before todo : List (ImVectorBucket Nat))
    (live done fresh : References) (earlier : Forest Label) : Prop :=
  ∃ new, List.Forall₂ Rewritten todo new ∧
    h'.blocks address = some ⟨withParts object (before ++ new), capacity⟩ ∧
    Changes h h' (insert address footprint) ∧
    Stage gone fuel h h' footprint live [] done (fresh ++ new.filterMap reference) earlier .nil

theorem Ended.cons {todo before : List (ImVectorBucket Nat)} {bucket' : ImVectorBucket Nat}
    (rewritten : Rewritten bucket bucket')
    (ended : Ended gone fuel h h₁ footprint address capacity object (before ++ [bucket']) todo live
      done (fresh ++ (reference bucket').toList) earlier) :
    Ended gone fuel h h₁ footprint address capacity object before (bucket :: todo) live done fresh
      earlier := by
  obtain ⟨new, others, stored, changes, stage⟩ := ended
  refine ⟨bucket' :: new, .cons rewritten others, by simpa using stored, changes, ?_⟩
  cases refers : reference bucket' with
  | none =>
      rw [List.filterMap_cons_none refers]
      simpa [refers] using stage
  | some referent =>
      rw [List.filterMap_cons_some refers]
      simpa [refers] using stage

/-- One bucket left behind has been rewritten, and what it refers to has been copied. -/
def Passed (gone : Nat → Prop) (fuel : Nat) (h h' : Heap Block) (footprint : Set Nat)
    (address capacity : Nat) (object : ImObject Nat) (before todo : List (ImVectorBucket Nat))
    (bucket : ImVectorBucket Nat) (live rest done fresh : References)
    (earlier restTrees : Forest Label) : Prop :=
  ∃ bucket', Rewritten bucket bucket' ∧
    h'.blocks address = some ⟨withParts object ((before ++ [bucket']) ++ todo), capacity⟩ ∧
    Changes h h' (insert address footprint) ∧
    Stage gone fuel h h' footprint live rest done (fresh ++ (reference bucket').toList) earlier
      restTrees

section Passing

variable {before todo : List (ImVectorBucket Nat)} {block : Block} {dangling : Bool}

/-- A bucket without an external object is passed over. -/
theorem Stage.yields_plain (valid : Valid gone h) (owner : h.blocks address = some block)
    (outside : address ∉ footprint) (changes : Changes h h₁ (insert address footprint))
    (found : h₁.blocks address = some ⟨withParts object (before ++ bucket :: todo), capacity⟩)
    (length_eq : (before ++ bucket :: todo).length = (parts object).length)
    (proper : ProperSize bucket) (refers : reference bucket = none)
    (stage : Stage gone fuel h h₁ footprint live rest done fresh earlier restTrees) :
    Yields ((copyBucket duplicate bucket >>= storeBucket address before.length) h₁)
      (¬ IsAttachedObject bucket.value) fun _ h' =>
      Passed gone fuel h h' footprint address capacity object before todo bucket live rest done
        fresh earlier restTrees := by
  have here : (before ++ bucket :: todo)[before.length]? = some bucket := by simp
  refine (yields_store_none found length_eq here refers).imp Iff.rfl ?_
  rintro _ h' - rfl
  refine ⟨bucket, ⟨rfl, proper⟩, by simp, ?_, ?_⟩
  · exact changes.trans (.write changes.bounded found _) (by simp [Stems])
  · simpa [refers] using stage.write valid owner outside _

/-- The bucket of a copied object is redirected to the copy. -/
theorem Stage.yields_redirect (valid : Valid gone h) (owner : h.blocks address = some block)
    (outside : address ∉ footprint) (changes : Changes h h₁ (insert address footprint))
    (found : h₁.blocks address = some ⟨withParts object (before ++ bucket :: todo), capacity⟩)
    (length_eq : (before ++ bucket :: todo).length = (parts object).length)
    (proper : ProperSize bucket) (refers : reference bucket = some referent)
    {touched : Set Nat} (stems : Stems h footprint touched) {sound : Prop}
    (copied : Yields (copyReferent duplicate referent.1 referent.2 h₁) sound fun copy h' =>
      Changes h₁ h' touched ∧ Stage gone fuel h h' footprint live rest done
        (fresh ++ [(referent.1, copy)]) earlier restTrees) :
    Yields ((copyBucket duplicate bucket >>= storeBucket address before.length) h₁) sound
      fun _ h' => Passed gone fuel h h' footprint address capacity object before todo bucket live
        rest done fresh earlier restTrees := by
  have away := stems.notMem valid.bounded owner outside
  refine (yields_store (valid.changes changes) found length_eq proper refers away copied).imp
    Iff.rfl ?_
  rintro _ h' - ⟨changes₁, copy, h₂, stage, rfl⟩
  obtain ⟨refers', rewritten⟩ := redirect_spec refers copy
  refine ⟨redirect bucket copy, rewritten, by simp, ?_, ?_⟩
  · exact changes.trans changes₁ (stems.insert address)
  · rw [refers']
    exact stage.write valid owner outside _

/-- One round of the loop over the buckets left behind. -/
theorem CopySpec.yields_unusedBucket (spec : CopySpec gone duplicate fuel) (valid : Valid gone h)
    (owner : h.blocks address = some block) (outside : address ∉ footprint)
    (changes : Changes h h₁ (insert address footprint))
    (found : h₁.blocks address = some ⟨withParts object (before ++ bucket :: todo), capacity⟩)
    (length_eq : (before ++ bucket :: todo).length = (parts object).length)
    (proper : ProperSize bucket)
    (left : LeftBehind gone live ((bucket :: todo).filterMap reference) rest dangling)
    (stage : Stage gone fuel h h₁ footprint live rest done fresh earlier restTrees) :
    ∃ sound rest' done' restTrees' dangling',
      LeftBehind gone live (todo.filterMap reference) rest' dangling' ∧
      done' ++ rest' = done ++ rest ∧
      (SoundWithin restTrees fuel ∧ dangling = false ∧ ¬ IsAttachedObject bucket.value ↔
        sound ∧ SoundWithin restTrees' fuel ∧ dangling' = false) ∧
      Yields ((copyBucket duplicate bucket >>= storeBucket address before.length) h₁) sound
        fun _ h' => Passed gone fuel h h' footprint address capacity object before todo bucket live
          rest' done' fresh earlier restTrees' := by
  have valid₁ := valid.changes changes
  cases refers : reference bucket with
  | none =>
      rw [List.filterMap_cons_none refers] at left
      refine ⟨_, rest, done, restTrees, dangling, left, rfl, ?_,
        stage.yields_plain valid owner outside changes found length_eq proper refers⟩
      tauto
  | some referent =>
      rw [List.filterMap_cons_some refers] at left
      have detached := not_isAttachedObject refers
      cases left with
      | inUse used others =>
          obtain ⟨touched, stems, copied⟩ :=
            stage.yields_alias spec valid₁ changes.next_le used
          refine ⟨_, rest, done, restTrees, dangling, others, rfl, ?_,
            Stage.yields_redirect valid owner outside changes found length_eq proper refers stems
              copied⟩
          tauto
      | keep others =>
          obtain ⟨touched, tree, trees, rfl, stems, copied⟩ :=
            stage.yields_keep spec valid₁ changes.next_le
          refine ⟨_, _, done ++ [referent], trees, dangling, others, by simp, ?_,
            Stage.yields_redirect valid owner outside changes found length_eq proper refers stems
              copied⟩
          rw [soundWithin_append]
          tauto
      | freed isGone others =>
          -- The copy reads a freed block.
          have isStuck := spec.copyReferent_freed (valid₁.freed _ isGone).2
          refine ⟨False, rest, done, restTrees, _, others, rfl, by simp, ?_⟩
          rw [copyBucket_of_reference proper refers, bind_none (bind_none isStuck _)]
          exact not_false

/-- The loop over the buckets left behind. -/
theorem CopySpec.yields_unused (spec : CopySpec gone duplicate fuel) (valid : Valid gone h)
    (owner : h.blocks address = some block) (outside : address ∉ footprint)
    (changes : Changes h h₁ (insert address footprint))
    (found : h₁.blocks address = some ⟨withParts object (before ++ todo), capacity⟩)
    (length_eq : (before ++ todo).length = (parts object).length)
    (proper : ∀ bucket ∈ todo, ProperSize bucket)
    (left : LeftBehind gone live (todo.filterMap reference) rest dangling)
    (stage : Stage gone fuel h h₁ footprint live rest done fresh earlier restTrees) :
    Yields (copyBuckets duplicate address todo.length before.length h₁)
      (SoundWithin restTrees fuel ∧ dangling = false ∧
        ∀ bucket ∈ todo, ¬ IsAttachedObject bucket.value) fun _ h' =>
      Ended gone fuel h h' footprint address capacity object before todo live (done ++ rest) fresh
        earlier := by
  induction todo generalizing before h₁ rest done fresh restTrees dangling with
  | nil =>
      cases left
      obtain ⟨used, unused, kept, new, liveTrees, doneTrees, freshTrees, liveStands, restStands,
        others⟩ := stage
      cases restStands
      refine ⟨by simp [SoundWithin], [], .nil, found, changes, used, ∅, kept, new, liveTrees,
        doneTrees, freshTrees, liveStands, .nil, ?_⟩
      simpa using others
  | cons bucket todo ih =>
      have here : (before ++ bucket :: todo)[before.length]? = some bucket := by simp
      rw [List.forall_mem_cons] at proper
      obtain ⟨sound, rest', done', restTrees', dangling', others, same, sound_iff, passes⟩ :=
        spec.yields_unusedBucket valid owner outside changes found length_eq proper.1 left stage
      have sound_iff' : SoundWithin restTrees fuel ∧ dangling = false ∧
          (∀ part ∈ bucket :: todo, ¬ IsAttachedObject part.value) ↔
          sound ∧ SoundWithin restTrees' fuel ∧ dangling' = false ∧
            ∀ part ∈ todo, ¬ IsAttachedObject part.value := by
        rw [List.forall_mem_cons]
        tauto
      rw [List.length_cons, copyBuckets_succ found length_eq here, sound_iff', ← same]
      refine passes.bind ?_
      rintro _ h₂ ⟨bucket', rewritten, stored, changes', stage'⟩ -
      have next : before.length + 1 = (before ++ [bucket']).length := by simp
      have length_eq' : ((before ++ [bucket']) ++ todo).length = (parts object).length := by
        rw [← length_eq]
        simp
      rw [next]
      refine (ih changes' stored length_eq' proper.2 others stage').imp Iff.rfl ?_
      intro _ h' _ ended
      exact ended.cons rewritten

end Passing

end Stages

theorem copyBuckets_add (m n i : Nat) :
    copyBuckets duplicate address (m + n) i =
      (copyBuckets duplicate address m i >>= fun _ => copyBuckets duplicate address n (i + m)) := by
  induction m generalizing i with
  | zero => rw [copyBuckets, pure_bind, Nat.zero_add, Nat.add_zero]
  | succ m ih =>
      rw [Nat.succ_add_eq_add_succ, Nat.add_succ, copyBuckets, copyBuckets, bind_assoc]
      congr 1
      funext block
      cases (parts block.content)[i]? with
      | none => rfl
      | some bucket =>
          simp only [bind_assoc]
          rw [ih, Nat.add_right_comm, Nat.add_assoc]

end Copies

end FrameCode.ImDuplicate
