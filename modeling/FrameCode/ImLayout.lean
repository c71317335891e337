import FrameCode.ImSerialize
import Mathlib.Data.List.Forall2

/-!
# The layout of a serialised object

What a bucket stands for does not depend on the form in which it is stored.
`Sees` reads a bucket in any of its forms, and `Laid` describes the form in which
the serialisers leave it: inlined, or attached right behind the object before
it.  One run of the loop over the buckets turns any readable buckets into laid
ones, and a second run finds them where they belong.
-/

namespace FrameCode.ImSerialize

open RegionMemory ImTypes MachineInt

/-- What a bucket stands for. -/
inductive Seen
  | plain (value : ImValue Owned)
  | string (bytes : List UInt8)
  | block (bytes : List UInt8)
  | nested (kind : Kind) (object : ImObject Owned)

/-- Values that are never stored outside of the bucket. -/
def IsPlain : ImValue Owned → Prop
  | .empty | .deleted | .num .. => True
  | _ => False

/-- A bucket stands for the given value; the attached forms refer to the used
part of the attached area. -/
inductive Sees (attached : Attached (ImObject Owned)) : ImVectorBucket Owned → Seen → Prop
  | plain {length : Nat} {value : ImValue Owned} (isPlain : IsPlain value) :
      Sees attached ⟨length, value⟩ (.plain value)
  | string {bytes : List UInt8} (short : bytes.length ≤ sizeofImValue) :
      Sees attached ⟨bytes.length, .string bytes⟩ (.string bytes)
  | externalString {size : Nat} {bytes : List UInt8} :
      Sees attached ⟨bytes.length, .externalString size (.alloc (.bytes bytes))⟩ (.string bytes)
  | attachedString {size offset : Nat} {bytes : List UInt8}
      (found : attached.area offset = some (.bytes bytes))
      (inside : offset + bytes.length ≤ attached.attachedOffset) :
      Sees attached ⟨bytes.length, .attachedString size offset⟩ (.string bytes)
  | block {bytes : List UInt8} (short : bytes.length ≤ sizeofImValue) :
      Sees attached ⟨bytes.length, .block bytes⟩ (.block bytes)
  | externalBlock {size : Nat} {bytes : List UInt8} :
      Sees attached ⟨bytes.length, .externalBlock size (.alloc (.bytes bytes))⟩ (.block bytes)
  | attachedBlock {size offset : Nat} {bytes : List UInt8}
      (found : attached.area offset = some (.bytes bytes))
      (inside : offset + bytes.length ≤ attached.attachedOffset) :
      Sees attached ⟨bytes.length, .attachedBlock size offset⟩ (.block bytes)
  | externalNested {length size : Nat} {object : ImObject Owned} :
      Sees attached ⟨length, .externalNested size (.alloc object)⟩ (.nested .nested object)
  | attachedNested {size offset : Nat} {object : ImObject Owned}
      (found : attached.area offset = some object)
      (inside : offset + object.size ≤ attached.attachedOffset) :
      Sees attached ⟨object.size, .attachedNested size offset⟩ (.nested .nested object)
  | externalVector {length size : Nat} {object : ImObject Owned} :
      Sees attached ⟨length, .externalVector size (.alloc object)⟩ (.nested .vector object)
  | attachedVector {size offset : Nat} {object : ImObject Owned}
      (found : attached.area offset = some object)
      (inside : offset + object.size ≤ attached.attachedOffset) :
      Sees attached ⟨object.size, .attachedVector size offset⟩ (.nested .vector object)

/-- Start of the next nested object. -/
def aligned (offset : Nat) : Nat := offset + imAlignOffset offset

/-- The attached form of a nested object. -/
def nestedForm : Kind → Nat → Nat → ImValue Owned
  | .nested => .attachedNested
  | .vector => .attachedVector

/-- A bucket in its serialised form, whose object fills the attached area from
`start` to `stop`. -/
inductive Laid (area : Area (ImObject Owned)) : Nat → ImVectorBucket Owned → Seen → Nat → Prop
  | plain {start length : Nat} {value : ImValue Owned} (isPlain : IsPlain value) :
      Laid area start ⟨length, value⟩ (.plain value) start
  | string {start : Nat} {bytes : List UInt8} (short : bytes.length ≤ sizeofImValue) :
      Laid area start ⟨bytes.length, .string bytes⟩ (.string bytes) start
  | attachedString {start : Nat} {bytes : List UInt8} (long : sizeofImValue < bytes.length)
      (found : area start = some (.bytes bytes)) :
      Laid area start ⟨bytes.length, .attachedString bytes.length start⟩ (.string bytes)
        (start + bytes.length)
  | block {start : Nat} {bytes : List UInt8} (short : bytes.length ≤ sizeofImValue) :
      Laid area start ⟨bytes.length, .block bytes⟩ (.block bytes) start
  | attachedBlock {start : Nat} {bytes : List UInt8} (long : sizeofImValue < bytes.length)
      (found : area start = some (.bytes bytes)) :
      Laid area start ⟨bytes.length, .attachedBlock bytes.length start⟩ (.block bytes)
        (start + bytes.length)
  | nested {start : Nat} {kind : Kind} {object : ImObject Owned} (positive : 0 < object.size)
      (found : area (aligned start) = some object) :
      Laid area start ⟨object.size, nestedForm kind object.size (aligned start)⟩
        (.nested kind object) (aligned start + object.size)

/-- Buckets laid one after the other. -/
inductive LaidAll (area : Area (ImObject Owned)) :
    Nat → List (ImVectorBucket Owned) → List Seen → Nat → Prop
  | nil {start : Nat} : LaidAll area start [] [] start
  | cons {start middle stop : Nat} {bucket : ImVectorBucket Owned} {seen : Seen}
      {buckets : List (ImVectorBucket Owned)} {seens : List Seen}
      (first : Laid area start bucket seen middle)
      (rest : LaidAll area middle buckets seens stop) :
      LaidAll area start (bucket :: buckets) (seen :: seens) stop

section Areas

variable {area after : Area (ImObject Owned)} {start stop : Nat}

theorem aligned_ge (offset : Nat) : offset ≤ aligned offset := Nat.le_add_right _ _

theorem Laid.le {bucket : ImVectorBucket Owned} {seen : Seen}
    (laid : Laid area start bucket seen stop) : start ≤ stop := by
  cases laid with
  | plain => exact le_rfl
  | string => exact le_rfl
  | attachedString => exact Nat.le_add_right _ _
  | block => exact le_rfl
  | attachedBlock => exact Nat.le_add_right _ _
  | nested => exact (aligned_ge start).trans (Nat.le_add_right _ _)

theorem LaidAll.le {buckets : List (ImVectorBucket Owned)} {seens : List Seen}
    (laid : LaidAll area start buckets seens stop) : start ≤ stop := by
  induction laid with
  | nil => exact le_rfl
  | cons first _ ih => exact first.le.trans ih

/-- Only the objects between `start` and `stop` matter. -/
theorem Laid.mono {bucket : ImVectorBucket Owned} {seen : Seen}
    (laid : Laid area start bucket seen stop)
    (kept : ∀ offset object, area offset = some object → 0 < object.size →
      offset + object.size ≤ stop → after offset = some object) :
    Laid after start bucket seen stop := by
  cases laid with
  | plain isPlain => exact .plain isPlain
  | string short => exact .string short
  | attachedString long found =>
      exact .attachedString long (kept _ _ found (Nat.zero_lt_of_lt long) le_rfl)
  | block short => exact .block short
  | attachedBlock long found =>
      exact .attachedBlock long (kept _ _ found (Nat.zero_lt_of_lt long) le_rfl)
  | nested positive found => exact .nested positive (kept _ _ found positive le_rfl)

theorem LaidAll.mono {buckets : List (ImVectorBucket Owned)} {seens : List Seen}
    (laid : LaidAll area start buckets seens stop)
    (kept : ∀ offset object, area offset = some object → 0 < object.size →
      offset + object.size ≤ stop → after offset = some object) :
    LaidAll after start buckets seens stop := by
  induction laid with
  | nil => exact .nil
  | cons first rest ih =>
      refine .cons (first.mono fun offset object found positive inside => ?_) (ih kept)
      exact kept offset object found positive (inside.trans rest.le)

/-- A laid bucket can be read. -/
theorem Laid.sees {bucket : ImVectorBucket Owned} {seen : Seen}
    {attached : Attached (ImObject Owned)} (laid : Laid attached.area start bucket seen stop)
    (inside : stop ≤ attached.attachedOffset) : Sees attached bucket seen := by
  cases laid with
  | plain isPlain => exact .plain isPlain
  | string short => exact .string short
  | attachedString long found => exact .attachedString found inside
  | block short => exact .block short
  | attachedBlock long found => exact .attachedBlock found inside
  | @nested kind _ positive found =>
      cases kind with
      | nested => exact .attachedNested found inside
      | vector => exact .attachedVector found inside

theorem LaidAll.sees {buckets : List (ImVectorBucket Owned)} {seens : List Seen}
    {attached : Attached (ImObject Owned)}
    (laid : LaidAll attached.area start buckets seens stop)
    (inside : stop ≤ attached.attachedOffset) : List.Forall₂ (Sees attached) buckets seens := by
  induction laid with
  | nil => exact .nil
  | cons first rest ih => exact .cons (first.sees (rest.le.trans inside)) (ih inside)

end Areas

/-- A rebuilt object still sees its attached objects. -/
theorem Sees.carry {attached : Attached (ImObject Owned)} {bucket : ImVectorBucket Owned}
    {seen : Seen} (sees : Sees attached bucket seen) : Sees attached.carry bucket seen := by
  have kept {offset : Nat} {object : ImObject Owned} (found : attached.area offset = some object)
      (inside : offset + object.size ≤ attached.attachedOffset) :
      attached.carry.area offset = some object := by
    simp [Attached.carry, Area.clip, found, inside]
  cases sees with
  | plain isPlain => exact .plain isPlain
  | string short => exact .string short
  | externalString => exact .externalString
  | attachedString found inside => exact .attachedString (kept found inside) inside
  | block short => exact .block short
  | externalBlock => exact .externalBlock
  | attachedBlock found inside => exact .attachedBlock (kept found inside) inside
  | externalNested => exact .externalNested
  | attachedNested found inside => exact .attachedNested (kept found inside) inside
  | externalVector => exact .externalVector
  | attachedVector found inside => exact .attachedVector (kept found inside) inside

/-! ## Reserving and appending -/

theorem growSize_ge (size needed : Nat) : size ≤ growSize size needed ∧
    needed ≤ growSize size needed := by
  unfold growSize
  omega

/-- One round of the loop that adds pages. -/
theorem growSize_step (size needed : Nat) :
    growSize size needed = if needed ≤ size then size else growSize (size + 8192) needed := by
  unfold growSize
  split <;> omega

section Reserve

variable (growth : Growth) (attached : Attached (ImObject Owned)) (length : Nat)

@[simp]
theorem reserve_attachedOffset :
    (reserve growth attached length).attachedOffset = attached.attachedOffset := by
  unfold reserve
  split <;> rfl

@[simp]
theorem reserve_area : (reserve growth attached length).area = attached.area := by
  unfold reserve
  split <;> rfl

/-- Both serialisers make room for an object that is not empty. -/
theorem reserve_room (positive : 0 < length) :
    attached.attachedOffset + length ≤ (reserve growth attached length).attachedSize ∧
      attached.attachedSize ≤ (reserve growth attached length).attachedSize := by
  obtain ⟨grown, enough⟩ :=
    growSize_ge attached.attachedSize (attached.attachedOffset + length)
  unfold reserve
  split
  · exact ⟨enough, grown⟩
  · rename_i notDue
    cases growth <;> simp only [Growth.due, not_lt] at notDue <;> omega

theorem reserve_of_fits (fits : attached.attachedOffset + length ≤ attached.attachedSize) :
    reserve growth attached length = attached := by
  have same := growSize_step attached.attachedSize (attached.attachedOffset + length)
  rw [if_pos fits] at same
  unfold reserve
  rw [same]
  split <;> rfl

end Reserve

theorem append_eq {form : Nat → Nat → ImValue Owned} {attached : Attached (ImObject Owned)}
    {bucket : ImVectorBucket Owned} {content : ImObject Owned}
    (length_eq : bucket.valueLength = content.size)
    (room : attached.attachedOffset + content.size ≤ attached.attachedSize) :
    append form attached bucket content =
      some ({ attached with
          attachedOffset := attached.attachedOffset + content.size
          area := Area.store ImObject.size attached.area attached.attachedOffset content },
        ⟨content.size, form content.size attached.attachedOffset⟩) := by
  obtain ⟨length, value⟩ := bucket
  obtain rfl : length = content.size := length_eq
  simp [append, room]

theorem fetch_carry {attached : Attached (ImObject Owned)} {offset : Nat}
    {object : ImObject Owned} (found : attached.area offset = some object)
    (inside : offset + object.size ≤ attached.attachedOffset) :
    fetch attached.carry offset object.size = some object :=
  Area.load_clip (Area.load_eq_some.mpr ⟨found, rfl⟩) inside

theorem store_kept {area : Area (ImObject Owned)} {written offset : Nat}
    {content object : ImObject Owned} (found : area offset = some object)
    (positive : 0 < object.size) (before : offset + object.size ≤ written) :
    Area.store ImObject.size area written content offset = some object := by
  have different : offset ≠ written := by omega
  simp [Area.store, different, found, Area.Apart, before]

/-! ## One bucket -/

section Step

variable {growth : Growth} {serialize : Kind → Owned → Option (Owned × Int)}
variable {buffer attached : Attached (ImObject Owned)}

/-- What a bucket stands for once its nested object is serialised. -/
inductive Serializes (serialize : Kind → Owned → Option (Owned × Int)) : Seen → Seen → Prop
  | plain {value : ImValue Owned} : Serializes serialize (.plain value) (.plain value)
  | string {bytes : List UInt8} : Serializes serialize (.string bytes) (.string bytes)
  | block {bytes : List UInt8} : Serializes serialize (.block bytes) (.block bytes)
  | nested {kind : Kind} {object object' : ImObject Owned} (positive : 0 < object'.size)
      (result : serialize kind (.alloc object) = some (Owned.alloc object', (object'.size : Int))) :
      Serializes serialize (.nested kind object) (.nested kind object')

theorem Serializes.of_nested {kind : Kind} {object : ImObject Owned} {seen : Seen}
    (serializes : Serializes serialize (.nested kind object) seen) :
    ∃ object', seen = .nested kind object' ∧ 0 < object'.size ∧
      serialize kind (.alloc object) = some (Owned.alloc object', (object'.size : Int)) := by
  cases serializes with
  | nested positive result => exact ⟨_, rfl, positive, result⟩

/-- The part of a step on the attached area: it fills the area from the old
offset to the new one and changes nothing before it. -/
structure Advances (before after : Attached (ImObject Owned)) : Prop where
  le : before.attachedOffset ≤ after.attachedOffset
  inside : before.attachedOffset ≤ before.attachedSize → after.attachedOffset ≤ after.attachedSize
  separated : Area.Separated ImObject.size before.area → Area.Separated ImObject.size after.area
  kept : ∀ offset object, before.area offset = some object → 0 < object.size →
    offset + object.size ≤ before.attachedOffset → after.area offset = some object

theorem Advances.refl (attached : Attached (ImObject Owned)) : Advances attached attached :=
  ⟨le_rfl, id, id, fun _ _ found _ _ => found⟩

theorem Advances.trans {before middle after : Attached (ImObject Owned)}
    (first : Advances before middle) (second : Advances middle after) : Advances before after where
  le := first.le.trans second.le
  inside within := second.inside (first.inside within)
  separated before := second.separated (first.separated before)
  kept offset object found positive within :=
    second.kept offset object (first.kept offset object found positive within) positive
      (within.trans first.le)

/-- Appending an object behind the reserved start of the attached area. -/
theorem append_spec (growth : Growth) (form : Nat → Nat → ImValue Owned)
    {bucket : ImVectorBucket Owned} {content : ImObject Owned} {start : Nat}
    (length_eq : bucket.valueLength = content.size) (positive : 0 < content.size)
    (later : attached.attachedOffset ≤ start) :
    ∃ after, append form (reserve growth { attached with attachedOffset := start } content.size)
        bucket content = some (after, ⟨content.size, form content.size start⟩) ∧
      after.attachedOffset = start + content.size ∧ after.area start = some content ∧
      Advances attached after := by
  obtain ⟨room, -⟩ := reserve_room growth { attached with attachedOffset := start } content.size
    positive
  have appended : append form
      (reserve growth { attached with attachedOffset := start } content.size) bucket content = _ :=
    append_eq length_eq (by rw [reserve_attachedOffset]; exact room)
  rw [reserve_attachedOffset, reserve_area] at appended
  refine ⟨_, appended, rfl, by simp [Area.store],
    ⟨later.trans (Nat.le_add_right _ _), fun _ => room, fun before => before.store _ _, ?_⟩⟩
  intro offset object found objectPositive before
  exact store_kept found objectPositive (before.trans later)

theorem attachBytes_spec {inlined : List UInt8 → ImValue Owned}
    {form : Nat → Nat → ImValue Owned} {value : ImValue Owned} {bytes : List UInt8}
    {seen : Seen}
    (inlinedLaid : ∀ area start, bytes.length ≤ sizeofImValue →
      Laid area start ⟨bytes.length, inlined bytes⟩ seen start)
    (formLaid : ∀ area start, sizeofImValue < bytes.length → area start = some (.bytes bytes) →
      Laid area start ⟨bytes.length, form bytes.length start⟩ seen (start + bytes.length)) :
    ∃ after placed, attachBytes inlined form (reserve growth attached bytes.length)
        ⟨bytes.length, value⟩ (.bytes bytes) = some (after, placed) ∧
      Laid after.area attached.attachedOffset placed seen after.attachedOffset ∧
      Advances attached after := by
  by_cases short : bytes.length ≤ sizeofImValue
  · refine ⟨reserve growth attached bytes.length, ⟨bytes.length, inlined bytes⟩,
      by simp [attachBytes, short], ?_, ⟨by simp, ?_, by simp, ?_⟩⟩
    · rw [reserve_attachedOffset]
      exact inlinedLaid _ _ short
    · rw [reserve_attachedOffset]
      intro inside
      by_cases positive : 0 < bytes.length
      · have := (reserve_room growth attached bytes.length positive).2
        omega
      · have fits : attached.attachedOffset + bytes.length ≤ attached.attachedSize := by omega
        rw [reserve_of_fits growth attached bytes.length fits]
        exact inside
    · intro offset object found _ _
      rw [reserve_area]
      exact found
  · have long : sizeofImValue < bytes.length := not_le.mp short
    have length_eq : (⟨bytes.length, value⟩ : ImVectorBucket Owned).valueLength =
        (ImObject.bytes bytes : ImObject Owned).size := rfl
    obtain ⟨after, appended, offset_eq, found, advances⟩ :=
      append_spec growth form length_eq (Nat.zero_lt_of_lt long) (le_refl attached.attachedOffset)
    refine ⟨after, ⟨bytes.length, form bytes.length attached.attachedOffset⟩, ?_, ?_, advances⟩
    · rw [attachBytes, if_neg short]
      exact appended
    · rw [offset_eq]
      exact formLaid _ _ long found

/-- The form of a nested object in a block of its own. -/
def externalForm : Kind → Nat → Owned → ImValue Owned
  | .nested => .externalNested
  | .vector => .externalVector

theorem attachNested_spec (growth : Growth) (buffer : Attached (ImObject Owned)) (kind : Kind)
    (size : Nat) {object : ImObject Owned} (positive : 0 < object.size) :
    ∃ after placed, attachBucket owned growth buffer attached
        ⟨object.size, externalForm kind size (.alloc object)⟩ = some (after, placed) ∧
      Laid after.area attached.attachedOffset placed (.nested kind object)
        after.attachedOffset ∧
      Advances attached after := by
  have length_eq : (⟨object.size, externalForm kind size (.alloc object)⟩ :
      ImVectorBucket Owned).valueLength = object.size := rfl
  obtain ⟨after, appended, offset_eq, found, advances⟩ :=
    append_spec growth (nestedForm kind) length_eq positive (aligned_ge attached.attachedOffset)
  refine ⟨after, ⟨object.size, nestedForm kind object.size (aligned attached.attachedOffset)⟩,
    ?_, ?_, advances⟩
  · rw [attachBucket_owned]
    cases kind <;> exact appended
  · rw [offset_eq]
    exact .nested positive found

theorem recordLength_ofNat (bucket : ImVectorBucket Owned) (value : ImValue Owned)
    (length : Nat) : recordLength bucket value (length : Int) = (⟨length, value⟩, true) := by
  simp [recordLength]

theorem serializeBucket_plain {length : Nat} {value : ImValue Owned} (isPlain : IsPlain value) :
    serializeBucket owned serialize buffer ⟨length, value⟩ = some (⟨length, value⟩, true) := by
  rw [serializeBucket_owned]
  cases value <;> first | rfl | cases isPlain

theorem attachBucket_plain {length : Nat} {value : ImValue Owned} (isPlain : IsPlain value) :
    attachBucket owned growth buffer attached ⟨length, value⟩ =
      some (attached, ⟨length, value⟩) := by
  rw [attachBucket_owned]
  cases value <;> first | rfl | cases isPlain

/-- Serialising and attaching a bucket brings it into its laid form. -/
theorem serialize_attach_spec (growth : Growth) {bucket : ImVectorBucket Owned}
    {seen seen' : Seen} (sees : Sees buffer bucket seen)
    (serializes : Serializes serialize seen seen') :
    ∃ serialized after placed,
      serializeBucket owned serialize buffer.carry bucket = some (serialized, true) ∧
      attachBucket owned growth buffer.carry attached serialized = some (after, placed) ∧
      Laid after.area attached.attachedOffset placed seen' after.attachedOffset ∧
      Advances attached after := by
  have stringForms (value : ImValue Owned) (bytes : List UInt8) :=
    @attachBytes_spec growth attached .string .attachedString value bytes (.string bytes)
      (fun _ _ short => .string short) (fun _ _ long found => .attachedString long found)
  have blockForms (value : ImValue Owned) (bytes : List UInt8) :=
    @attachBytes_spec growth attached .block .attachedBlock value bytes (.block bytes)
      (fun _ _ short => .block short) (fun _ _ long found => .attachedBlock long found)
  cases sees with
  | plain isPlain =>
      cases serializes
      exact ⟨_, attached, _, serializeBucket_plain isPlain, attachBucket_plain isPlain,
        .plain isPlain, .refl attached⟩
  | string short =>
      cases serializes
      exact ⟨_, attached, _, by rw [serializeBucket_owned], by rw [attachBucket_owned],
        .string short, .refl attached⟩
  | externalString =>
      cases serializes
      obtain ⟨after, placed, placedEq, laid, advances⟩ := stringForms _ _
      exact ⟨_, after, placed, by rw [serializeBucket_owned],
        by rw [attachBucket_owned]; exact placedEq, laid, advances⟩
  | attachedString found inside =>
      cases serializes
      obtain ⟨after, placed, placedEq, laid, advances⟩ := stringForms _ _
      refine ⟨_, after, placed, by rw [serializeBucket_owned], ?_, laid, advances⟩
      rw [attachBucket_owned]
      exact (congrArg (Option.bind · _) (fetch_carry found inside)).trans placedEq
  | block short =>
      cases serializes
      exact ⟨_, attached, _, by rw [serializeBucket_owned], by rw [attachBucket_owned],
        .block short, .refl attached⟩
  | externalBlock =>
      cases serializes
      obtain ⟨after, placed, placedEq, laid, advances⟩ := blockForms _ _
      exact ⟨_, after, placed, by rw [serializeBucket_owned],
        by rw [attachBucket_owned]; exact placedEq, laid, advances⟩
  | attachedBlock found inside =>
      cases serializes
      obtain ⟨after, placed, placedEq, laid, advances⟩ := blockForms _ _
      refine ⟨_, after, placed, by rw [serializeBucket_owned], ?_, laid, advances⟩
      rw [attachBucket_owned]
      exact (congrArg (Option.bind · _) (fetch_carry found inside)).trans placedEq
  | @externalNested length size object =>
      obtain ⟨object', rfl, positive, result⟩ := serializes.of_nested
      obtain ⟨after, placed, placedEq, laid, advances⟩ :=
        attachNested_spec growth buffer.carry .nested size positive
      refine ⟨_, after, placed, ?_, placedEq, laid, advances⟩
      rw [serializeBucket_owned]
      simp only [result, Option.map_some, recordLength_ofNat]
      rfl
  | @externalVector length size object =>
      obtain ⟨object', rfl, positive, result⟩ := serializes.of_nested
      obtain ⟨after, placed, placedEq, laid, advances⟩ :=
        attachNested_spec growth buffer.carry .vector size positive
      refine ⟨_, after, placed, ?_, placedEq, laid, advances⟩
      rw [serializeBucket_owned]
      simp only [result, Option.map_some, recordLength_ofNat]
      rfl
  | @attachedNested size offset object found inside =>
      obtain ⟨object', rfl, positive, result⟩ := serializes.of_nested
      obtain ⟨after, placed, placedEq, laid, advances⟩ :=
        attachNested_spec growth buffer.carry .nested object.size positive
      refine ⟨_, after, placed, ?_, placedEq, laid, advances⟩
      rw [serializeBucket_owned]
      simp only [fetch_carry found inside, Option.bind_some, result, Option.map_some,
        recordLength_ofNat]
      rfl
  | @attachedVector size offset object found inside =>
      obtain ⟨object', rfl, positive, result⟩ := serializes.of_nested
      obtain ⟨after, placed, placedEq, laid, advances⟩ :=
        attachNested_spec growth buffer.carry .vector object.size positive
      refine ⟨_, after, placed, ?_, placedEq, laid, advances⟩
      rw [serializeBucket_owned]
      simp only [fetch_carry found inside, Option.bind_some, result, Option.map_some,
        recordLength_ofNat]
      rfl

/-- The loop over the buckets: readable buckets become laid ones. -/
theorem serializeBuckets_spec (growth : Growth) {buckets : List (ImVectorBucket Owned)}
    {seens seens' : List Seen} (attached : Attached (ImObject Owned))
    (sees : List.Forall₂ (Sees buffer) buckets seens)
    (serializes : List.Forall₂ (Serializes serialize) seens seens') :
    ∃ after buckets', serializeBuckets owned growth id (fun _ bucket => bucket) serialize
        buffer.carry attached buckets = some (after, buckets', true) ∧
      LaidAll after.area attached.attachedOffset buckets' seens' after.attachedOffset ∧
      Advances attached after := by
  induction sees generalizing attached seens' with
  | nil =>
      cases serializes
      exact ⟨attached, [], rfl, .nil, .refl attached⟩
  | cons seesFirst _ ih =>
      cases serializes with
      | cons serializesFirst serializesRest =>
          obtain ⟨serialized, middle, placed, serializedEq, placedEq, laid, advances⟩ :=
            serialize_attach_spec growth seesFirst serializesFirst
          obtain ⟨after, buckets', walked, laidRest, advancesRest⟩ := ih middle serializesRest
          refine ⟨after, placed :: buckets', ?_, ?_, advances.trans advancesRest⟩
          · simp [serializeBuckets, serializedEq, placedEq, walked]
          · exact .cons (laid.mono advancesRest.kept) laidRest

/-! ## A second run -/

/-- A laid bucket whose nested object is already serialised goes back to where
it stands. -/
theorem serialize_attach_again (growth : Growth) {start stop : Nat}
    {bucket : ImVectorBucket Owned} {seen : Seen} (separated : Area.Separated ImObject.size
      attached.area) (laid : Laid attached.area start bucket seen stop)
    (used : stop ≤ attached.attachedOffset) (inside : stop ≤ attached.attachedSize)
    (fixed : Serializes serialize seen seen) :
    ∃ serialized,
      serializeBucket owned serialize attached.carry bucket = some (serialized, true) ∧
      attachBucket owned growth attached.carry { attached with attachedOffset := start }
        serialized = some ({ attached with attachedOffset := stop }, bucket) := by
  have appendAgain {form : Nat → Nat → ImValue Owned} {value : ImValue Owned} {offset : Nat}
      {object : ImObject Owned} (found : attached.area offset = some object)
      (fits : offset + object.size ≤ attached.attachedSize) :
      append form (reserve growth { attached with attachedOffset := offset } object.size)
        ⟨object.size, value⟩ object =
        some ({ attached with attachedOffset := offset + object.size },
          ⟨object.size, form object.size offset⟩) := by
    rw [reserve_of_fits growth { attached with attachedOffset := offset } object.size fits,
      append_eq rfl fits, Area.store_eq_self separated found]
  cases laid with
  | plain isPlain => exact ⟨_, serializeBucket_plain isPlain, attachBucket_plain isPlain⟩
  | string => exact ⟨_, by rw [serializeBucket_owned], by rw [attachBucket_owned]⟩
  | block => exact ⟨_, by rw [serializeBucket_owned], by rw [attachBucket_owned]⟩
  | attachedString long found =>
      refine ⟨_, by rw [serializeBucket_owned], ?_⟩
      rw [attachBucket_owned]
      refine (congrArg (Option.bind · _) (fetch_carry found used)).trans ?_
      rw [Option.bind_some, attachBytes, if_neg (not_le.mpr long)]
      exact @appendAgain .attachedString _ _ (.bytes _) found inside
  | attachedBlock long found =>
      refine ⟨_, by rw [serializeBucket_owned], ?_⟩
      rw [attachBucket_owned]
      refine (congrArg (Option.bind · _) (fetch_carry found used)).trans ?_
      rw [Option.bind_some, attachBytes, if_neg (not_le.mpr long)]
      exact @appendAgain .attachedBlock _ _ (.bytes _) found inside
  | @nested kind object positive found =>
      obtain ⟨object', same, -, result⟩ := fixed.of_nested
      cases same
      refine ⟨⟨object.size, externalForm kind object.size (.alloc object)⟩, ?_, ?_⟩
      · rw [serializeBucket_owned]
        cases kind <;>
          simp only [nestedForm, fetch_carry found used, Option.bind_some, result,
            Option.map_some, recordLength_ofNat] <;> rfl
      · rw [attachBucket_owned]
        cases kind <;> exact appendAgain found inside

/-- Running the loop on laid buckets changes nothing. -/
theorem serializeBuckets_again (growth : Growth) {start stop : Nat}
    {buckets : List (ImVectorBucket Owned)} {seens : List Seen}
    (separated : Area.Separated ImObject.size attached.area)
    (laid : LaidAll attached.area start buckets seens stop)
    (used : stop ≤ attached.attachedOffset) (inside : stop ≤ attached.attachedSize)
    (fixed : ∀ seen ∈ seens, Serializes serialize seen seen) :
    serializeBuckets owned growth id (fun _ bucket => bucket) serialize attached.carry
        { attached with attachedOffset := start } buckets =
      some ({ attached with attachedOffset := stop }, buckets, true) := by
  induction laid with
  | nil => rfl
  | cons first rest ih =>
      obtain ⟨serialized, serializedEq, placedEq⟩ :=
        serialize_attach_again growth separated first (rest.le.trans used)
          (rest.le.trans inside) (fixed _ (by simp))
      have restEq := ih used inside fun seen member => fixed seen (by simp [member])
      simp [serializeBuckets, serializedEq, placedEq, restEq]

end Step

/-! ## Whole objects -/

/-- The loop on hash buckets is the loop on their common parts. -/
theorem serializeBuckets_view {β : Type} (growth : Growth) (view : β → ImVectorBucket Owned)
    (put : β → ImVectorBucket Owned → β) (put_view : ∀ bucket, put bucket (view bucket) = bucket)
    (serialize : Kind → Owned → Option (Owned × Int)) (buffer : Attached (ImObject Owned))
    (attached : Attached (ImObject Owned)) (buckets : List β) :
    serializeBuckets owned growth view put serialize buffer attached buckets =
      (serializeBuckets owned growth id (fun _ bucket => bucket) serialize buffer attached
        (buckets.map view)).map fun walked =>
          (walked.1, List.zipWith put buckets walked.2.1, walked.2.2) := by
  induction buckets generalizing attached with
  | nil => rfl
  | cons bucket rest ih =>
      have unchanged : List.zipWith put rest (rest.map view) = rest := by
        simp [List.zipWith_map_right, put_view]
      simp only [serializeBuckets, List.map_cons, id, Option.bind_eq_bind, ih]
      cases serializedEq : serializeBucket owned serialize buffer (view bucket) with
      | none => rfl
      | some serialized =>
          obtain ⟨serialized, good⟩ := serialized
          cases good with
          | false => simp [unchanged]
          | true => simp [Option.map_bind, Option.bind_map, Function.comp_def]

/-- The attached area of a serialised object: exactly as large as the objects of
its buckets, laid one after the other. -/
structure Arranged (attached : Attached (ImObject Owned)) (buckets : List (ImVectorBucket Owned))
    (seens : List Seen) : Prop where
  laid : LaidAll attached.area 0 buckets seens attached.attachedOffset
  size_eq : attached.attachedSize = attached.attachedOffset
  separated : Area.Separated ImObject.size attached.area
  inside : ∀ offset object, attached.area offset = some object →
    offset + object.size ≤ attached.attachedOffset

section Arranging

variable {attached : Attached (ImObject Owned)} {buckets : List (ImVectorBucket Owned)}
variable {seens : List Seen}

theorem Arranged.shrink (laid : LaidAll attached.area 0 buckets seens attached.attachedOffset)
    (separated : Area.Separated ImObject.size attached.area) :
    Arranged (shrink attached) buckets seens where
  laid := laid.mono fun offset object found _ within => by
    simp [ImSerialize.shrink, Attached.carry, Area.clip, found, within]
  size_eq := rfl
  separated := separated.clip _
  inside offset object found := by
    simp only [ImSerialize.shrink, Attached.carry, Area.clip, Option.filter_eq_some_iff] at found
    exact of_decide_eq_true found.2

theorem Arranged.carry_eq (arranged : Arranged attached buckets seens) :
    attached.carry = attached := by
  obtain ⟨size, offset, area⟩ := attached
  have size_eq : size = offset := arranged.size_eq
  simp [Attached.carry, Area.clip_eq_self arranged.inside, size_eq]

theorem Arranged.sees (arranged : Arranged attached buckets seens) :
    List.Forall₂ (Sees attached) buckets seens :=
  arranged.laid.sees le_rfl

end Arranging

section Tables

variable {serialize : Kind → Owned → Option (Owned × Int)} {seens seens' : List Seen}

/-- The common parts of the buckets of a table. -/
def commonParts (table : ImHashtable Owned) : List (ImVectorBucket Owned) :=
  table.buckets.map ImHashBucket.toImVectorBucket

theorem LaidAll.length_eq {area : Area (ImObject Owned)} {start stop : Nat}
    {buckets : List (ImVectorBucket Owned)} (laid : LaidAll area start buckets seens stop) :
    buckets.length = seens.length := by
  induction laid with
  | nil => rfl
  | cons _ _ ih => simp [ih]

theorem exists_forall₂ {α β : Type} {related : α → β → Prop} {items : List α}
    (each : ∀ item ∈ items, ∃ image, related item image) :
    ∃ images, List.Forall₂ related items images := by
  induction items with
  | nil => exact ⟨[], .nil⟩
  | cons item rest ih =>
      obtain ⟨image, first⟩ := each item (by simp)
      obtain ⟨images, others⟩ := ih fun other member => each other (by simp [member])
      exact ⟨image :: images, .cons first others⟩

/-- Put back the common parts of hash buckets. -/
def withParts (buckets : List (ImHashBucket Owned)) (common : List (ImVectorBucket Owned)) :
    List (ImHashBucket Owned) :=
  List.zipWith (fun bucket part => { bucket with toImVectorBucket := part }) buckets common

theorem commonParts_withParts {buckets : List (ImHashBucket Owned)}
    {common : List (ImVectorBucket Owned)} (length_eq : buckets.length = common.length) :
    (withParts buckets common).map ImHashBucket.toImVectorBucket = common := by
  induction buckets generalizing common with
  | nil =>
      cases common with
      | nil => rfl
      | cons => simp at length_eq
  | cons bucket rest ih =>
      cases common with
      | nil => simp at length_eq
      | cons part parts =>
          simp only [withParts] at ih ⊢
          simp [ih (by simpa using length_eq)]

theorem withParts_key {buckets : List (ImHashBucket Owned)}
    {common : List (ImVectorBucket Owned)} (length_eq : buckets.length = common.length) :
    (withParts buckets common).map ImHashBucket.key = buckets.map ImHashBucket.key := by
  induction buckets generalizing common with
  | nil => rfl
  | cons bucket rest ih =>
      cases common with
      | nil => simp at length_eq
      | cons part parts =>
          simp only [withParts] at ih ⊢
          simp [ih (by simpa using length_eq)]

theorem withParts_self (table : ImHashtable Owned) :
    withParts table.buckets (commonParts table) = table.buckets := by
  simp [withParts, commonParts, List.zipWith_map_right]

/-- A table is serialised by the loop over the common parts of its buckets. -/
theorem serializeTable_of_walk {table : ImHashtable Owned} {walked : Attached (ImObject Owned)}
    {common : List (ImVectorBucket Owned)}
    (walkedEq : serializeBuckets owned .hashtable id (fun _ bucket => bucket) serialize
      table.extra.carry { table.extra with attachedOffset := 0 } (commonParts table) =
        some (walked, common, true)) :
    serializeTable owned serialize table =
      some ({ table with extra := shrink walked, buckets := withParts table.buckets common },
        toInt32 (hashSize table.numberOfBuckets + (shrink walked).attachedSize)) := by
  have viewed := serializeBuckets_view .hashtable ImHashBucket.toImVectorBucket
    (fun bucket common => { bucket with toImVectorBucket := common }) (fun _ => rfl)
    serialize table.extra.carry { table.extra with attachedOffset := 0 } table.buckets
  rw [← commonParts, walkedEq, Option.map_some] at viewed
  rw [serializeTable, savedBuffer, viewed]
  rfl

/-- Serialising a table whose buckets can be read succeeds and arranges it. -/
theorem serializeTable_spec {table : ImHashtable Owned}
    (separated : Area.Separated ImObject.size table.extra.area)
    (sees : List.Forall₂ (Sees table.extra) (commonParts table) seens)
    (serializes : List.Forall₂ (Serializes serialize) seens seens') :
    ∃ after : ImHashtable Owned, serializeTable owned serialize table =
        some (after, toInt32 (hashSize after.numberOfBuckets + after.extra.attachedSize)) ∧
      after.numberOfBuckets = table.numberOfBuckets ∧
      Arranged after.extra (commonParts after) seens' ∧ after.inuse = table.inuse ∧
      after.buckets.map ImHashBucket.key = table.buckets.map ImHashBucket.key := by
  obtain ⟨walked, common, walkedEq, laid, advances⟩ :=
    serializeBuckets_spec .hashtable { table.extra with attachedOffset := 0 } sees serializes
  have length_eq : table.buckets.length = common.length := by
    rw [laid.length_eq, ← serializes.length_eq, ← sees.length_eq, commonParts, List.length_map]
  refine ⟨_, serializeTable_of_walk walkedEq, rfl, ?_, rfl, withParts_key length_eq⟩
  rw [commonParts, commonParts_withParts length_eq]
  exact .shrink laid (advances.separated separated)

/-- Serialising an arranged table changes nothing. -/
theorem serializeTable_again {table : ImHashtable Owned}
    (arranged : Arranged table.extra (commonParts table) seens)
    (fixed : ∀ seen ∈ seens, Serializes serialize seen seen) :
    serializeTable owned serialize table =
      some (table, toInt32 (hashSize table.numberOfBuckets + table.extra.attachedSize)) := by
  have walkedEq := serializeBuckets_again .hashtable arranged.separated arranged.laid le_rfl
    arranged.size_eq.ge fixed
  rw [serializeTable_of_walk walkedEq, withParts_self, shrink, arranged.carry_eq]

end Tables

/-! ## Vectors -/

section Vectors

variable {serialize : Kind → Owned → Option (Owned × Int)} {seens seens' : List Seen}

/-- The buckets of a vector that are in use. -/
def usedBuckets (vector : ImVector Owned) : List (ImVectorBucket Owned) :=
  vector.buckets.take vector.inuse

theorem serializeVector_of_walk {vector : ImVector Owned} {walked : Attached (ImObject Owned)}
    {used : List (ImVectorBucket Owned)}
    (walkedEq : serializeBuckets owned .vector id (fun _ bucket => bucket) serialize
      vector.attached.carry { vector.attached with attachedOffset := 0 } (usedBuckets vector) =
        some (walked, used, true)) :
    serializeVector owned serialize vector =
      some ({ vector with
          attached := shrink walked, buckets := used ++ vector.buckets.drop vector.inuse },
        toInt32 (vectorSize vector.numberOfBuckets + (shrink walked).attachedSize)) := by
  rw [serializeVector, savedBuffer, ← usedBuckets, walkedEq]
  rfl

theorem serializeVector_spec {vector : ImVector Owned}
    (separated : Area.Separated ImObject.size vector.attached.area)
    (full : vector.inuse ≤ vector.buckets.length)
    (sees : List.Forall₂ (Sees vector.attached) (usedBuckets vector) seens)
    (serializes : List.Forall₂ (Serializes serialize) seens seens') :
    ∃ after : ImVector Owned, serializeVector owned serialize vector =
        some (after, toInt32 (vectorSize after.numberOfBuckets + after.attached.attachedSize)) ∧
      after.numberOfBuckets = vector.numberOfBuckets ∧ after.inuse = vector.inuse ∧
      after.buckets.length = vector.buckets.length ∧
      Arranged after.attached (usedBuckets after) seens' := by
  obtain ⟨walked, used, walkedEq, laid, advances⟩ :=
    serializeBuckets_spec .vector { vector.attached with attachedOffset := 0 } sees serializes
  have length_eq : used.length = vector.inuse := by
    rw [laid.length_eq, ← serializes.length_eq, ← sees.length_eq, usedBuckets, List.length_take]
    omega
  refine ⟨_, serializeVector_of_walk walkedEq, rfl, rfl, ?_, ?_⟩
  · simp only [List.length_append, List.length_drop]
    omega
  · have taken : (used ++ vector.buckets.drop vector.inuse).take vector.inuse = used := by
      rw [← length_eq, List.take_left]
    simp only [usedBuckets, taken]
    exact .shrink laid (advances.separated separated)

theorem serializeVector_again {vector : ImVector Owned}
    (arranged : Arranged vector.attached (usedBuckets vector) seens)
    (fixed : ∀ seen ∈ seens, Serializes serialize seen seen) :
    serializeVector owned serialize vector =
      some (vector, toInt32 (vectorSize vector.numberOfBuckets +
        vector.attached.attachedSize)) := by
  have walkedEq := serializeBuckets_again .vector arranged.separated arranged.laid le_rfl
    arranged.size_eq.ge fixed
  have unchanged : usedBuckets vector ++ vector.buckets.drop vector.inuse = vector.buckets :=
    List.take_append_drop _ _
  rw [serializeVector_of_walk walkedEq, unchanged, shrink, arranged.carry_eq]

end Vectors

end FrameCode.ImSerialize
