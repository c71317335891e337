import FrameCode.ImDuplicateFaithful

/-!
# The answers of a copy

Trees with the same labels answer alike.  A duplication is faithful exactly for sound objects with
room.
-/

namespace FrameCode.ImDuplicate

open BlockHeap OpenAddressing ImTypes ImHashtable ImVector ImSerialize MachineInt

/-! ## One lookup -/

section Lookup

variable {h h' : Heap Block} {vector vector' : ImVector Nat} {capacity capacity' : Nat}
variable {bucket bucket' : ImVectorBucket Nat} {path : List Hop}

/-- The answer to a path that goes on from a bucket with no attached object. -/
def bucketAnswer (h : Heap Block) (path : List Hop) (object : ImObject Nat) (capacity : Nat)
    (bucket : ImVectorBucket Nat) : Answer :=
  match bucket.value with
  | .externalNested _ address | .externalVector _ address => answerAt h address path
  | _ => if path.isEmpty then leafAnswer h object capacity bucket else .missing

theorem Fitting.answer_eq (fits : Fitting capacity vector)
    (detached : ∀ bucket ∈ usedParts (.vector vector), ¬ IsAttachedObject bucket.value)
    (position : Int) :
    answer h (.position position :: path) (.vector vector) capacity =
      match imGetElement vector position with
      | none => .missing
      | some bucket => bucketAnswer h path (.vector vector) capacity bucket := by
  by_cases inside : 0 ≤ position ∧ position < vector.inuse
  · have less : position.toNat < vector.inuse := by omega
    have within : position.toNat < vector.buckets.length := by
      rw [fits.sized.length_buckets]
      exact less.trans_le fits.sized.inuse_le
    have here : imGetElement vector position = some vector.buckets[position.toNat] := by
      rw [imGetElement, if_pos inside, List.getElem?_eq_getElem within]
    have member : vector.buckets[position.toNat] ∈ usedParts (.vector vector) := by
      rw [usedParts, List.mem_take_iff_getElem]
      exact ⟨position.toNat, by omega, rfl⟩
    have plain := detached _ member
    simp only [answer, ImDuplicate.lookup, if_pos inside, here, List.mem_singleton, forall_eq]
    rw [if_pos (fits.bucket_inside (less.trans_le fits.sized.inuse_le))]
    generalize vector.buckets[position.toNat] = bucket at plain
    obtain ⟨length, value⟩ := bucket
    cases value with
    | attachedNested => exact absurd trivial plain
    | attachedVector => exact absurd trivial plain
    | externalNested _ address =>
        simp only [bucketAnswer, answerAt]
    | externalVector _ address =>
        simp only [bucketAnswer, answerAt]
    | _ => rfl
  · simp [answer, ImDuplicate.lookup, imGetElement, if_neg inside]

/-- What is found behind two references when the one is followed in `h` and the other in `h'`. -/
structure Agree (h h' : Heap Block) (path : List Hop) (referent referent' : Referent × Nat) :
    Prop where
  answer_eq : answerAt h' referent'.2 path = answerAt h referent.2 path
  bytes_eq : ∀ length, referent.1 = .bytes length →
    (h'.blocks referent'.2).map Block.content = (h.blocks referent.2).map Block.content

theorem eq_of_forgetPart (plain : reference bucket = none)
    (forget_eq : forgetPart bucket' = forgetPart bucket) : bucket' = bucket := by
  obtain ⟨length, value⟩ := bucket
  obtain ⟨length', value'⟩ := bucket'
  cases value <;> cases value' <;> simp_all [forgetPart, reference]

/-- The sort of the block that a bucket refers to does not depend on the pointer. -/
theorem reference_of_forgetPart {referent : Referent × Nat}
    (refers : reference bucket = some referent)
    (forget_eq : forgetPart bucket' = forgetPart bucket) :
    ∃ address, reference bucket' = some (referent.1, address) := by
  obtain ⟨length, value⟩ := bucket
  obtain ⟨length', value'⟩ := bucket'
  cases value <;> cases value' <;> simp_all [forgetPart, reference]
  all_goals rw [← refers]

/-- What a reference leads to decides the answer. -/
theorem bucketAnswer_of_agree {referent referent' : Referent × Nat} {object object' : ImObject Nat}
    (refers : reference bucket = some referent) (refers' : reference bucket' = some referent')
    (forget_eq : forgetPart bucket' = forgetPart bucket)
    (agree : Agree h h' path referent referent') :
    bucketAnswer h' path object' capacity' bucket' = bucketAnswer h path object capacity bucket := by
  have answer_eq := agree.answer_eq
  obtain ⟨length, value⟩ := bucket
  obtain ⟨length', value'⟩ := bucket'
  obtain ⟨sort, address⟩ := referent
  obtain ⟨sort', address'⟩ := referent'
  cases value <;> cases value' <;> simp [forgetPart, reference] at forget_eq refers refers' <;>
    simp_all [bucketAnswer, leafAnswer]
  all_goals rw [agree.bytes_eq length refers.1.symm]

/-- Buckets that differ in their pointers only lead to the same answers. -/
theorem bucketAnswer_congr (fits : Fitting capacity vector) (fits' : Fitting capacity' vector')
    (attached_eq : vector'.attached = vector.attached)
    (size_eq : vector'.numberOfBuckets = vector.numberOfBuckets)
    (used : bucket ∈ usedParts (.vector vector)) (used' : bucket' ∈ usedParts (.vector vector'))
    (forget_eq : forgetPart bucket' = forgetPart bucket)
    (agree : ∀ referent referent', reference bucket = some referent →
      reference bucket' = some referent' → Agree h h' path referent referent') :
    bucketAnswer h' path (.vector vector') capacity' bucket' =
      bucketAnswer h path (.vector vector) capacity bucket := by
  cases refers : reference bucket with
  | some referent =>
      obtain ⟨address, refers'⟩ := reference_of_forgetPart refers forget_eq
      exact bucketAnswer_of_agree refers refers' forget_eq (agree _ _ refers refers')
  | none =>
      obtain rfl := eq_of_forgetPart refers forget_eq
      have inside := fits.attached_inside used
      have inside' := fits'.attached_inside used'
      have base_eq : attachedBase (.vector vector') = attachedBase (.vector vector) := by
        simp only [attachedBase, size_eq]
      obtain ⟨length, value⟩ := bucket'
      cases value with
      | attachedString size offset =>
          simp only [attachedAccesses, List.mem_singleton, forall_eq] at inside inside'
          simp only [bucketAnswer, leafAnswer, attachedBytes, if_pos inside, if_pos inside',
            attachedOf, attached_eq]
      | attachedBlock size offset =>
          simp only [attachedAccesses, List.mem_singleton, forall_eq] at inside inside'
          simp only [bucketAnswer, leafAnswer, attachedBytes, if_pos inside, if_pos inside',
            attachedOf, attached_eq]
      | externalNested => cases refers
      | externalVector => cases refers
      | externalString => cases refers
      | externalBlock => cases refers
      | _ => rfl

end Lookup

/-! ## Trees with the same labels -/

section Trees

variable {gone gone' : Nat → Prop} {h h' : Heap Block} {short : Bool}

/-- The buckets of both lists refer to the same sorts of blocks, one by one. -/
theorem sorts_of_forgetPart {buckets buckets' : List (ImVectorBucket Nat)}
    (forget_eq : buckets'.map forgetPart = buckets.map forgetPart) :
    (buckets'.filterMap reference).map Prod.fst = (buckets.filterMap reference).map Prod.fst := by
  have sort_eq (bucket : ImVectorBucket Nat) :
      (reference bucket).map Prod.fst = (reference (forgetPart bucket)).map Prod.fst := by
    obtain ⟨length, value⟩ := bucket
    cases value <;> rfl
  have through (buckets : List (ImVectorBucket Nat)) :
      (buckets.filterMap reference).map Prod.fst =
        (buckets.map forgetPart).filterMap fun bucket => (reference bucket).map Prod.fst := by
    rw [List.map_filterMap, List.filterMap_map]
    exact List.filterMap_congr fun bucket _ => sort_eq bucket
  rw [through, through, forget_eq]

/-- Relations between the references of two lists of buckets hold of the single buckets. -/
theorem forall₂_references {buckets buckets' : List (ImVectorBucket Nat)}
    {related : Referent × Nat → Referent × Nat → Prop}
    (forget_eq : buckets'.map forgetPart = buckets.map forgetPart)
    (all : List.Forall₂ related (buckets.filterMap reference) (buckets'.filterMap reference)) :
    List.Forall₂ (fun bucket bucket' => forgetPart bucket' = forgetPart bucket ∧
      ∀ referent referent', reference bucket = some referent → reference bucket' = some referent' →
        related referent referent') buckets buckets' := by
  induction buckets generalizing buckets' with
  | nil =>
      obtain rfl : buckets' = [] := by simpa using forget_eq
      exact .nil
  | cons bucket buckets ih =>
      cases buckets' with
      | nil => simp at forget_eq
      | cons bucket' buckets' =>
          rw [List.map_cons, List.map_cons, List.cons.injEq] at forget_eq
          cases refers : reference bucket with
          | none =>
              obtain rfl := eq_of_forgetPart refers forget_eq.1
              rw [List.filterMap_cons_none refers, List.filterMap_cons_none refers] at all
              refine .cons ⟨rfl, ?_⟩ (ih forget_eq.2 all)
              intro referent referent' impossible
              cases refers.symm.trans impossible
          | some referent =>
              obtain ⟨address, refers'⟩ := reference_of_forgetPart refers forget_eq.1
              rw [List.filterMap_cons_some refers, List.filterMap_cons_some refers'] at all
              cases all with
              | cons first rest =>
                  refine .cons ⟨forget_eq.1, ?_⟩ (ih forget_eq.2 rest)
                  intro first₁ first₂ same same'
                  obtain rfl := Option.some.inj (refers.symm.trans same)
                  obtain rfl := Option.some.inj (refers'.symm.trans same')
                  exact first

theorem usedParts_forget (object : ImObject Nat) :
    usedParts (forget object) = (usedParts object).map forgetPart := by
  cases object with
  | vector vector => exact List.map_take.symm
  | hashtable table =>
      change parts (forget (.hashtable table)) = _
      exact parts_forget
  | bytes => rfl
  | torn => rfl

theorem IsNode.forget_eq {sort : Referent} {block : Block} {label : Label} {live kept : References}
    (isNode : IsNode gone sort block label live kept) : label.object = forget block.content := by
  cases sort with
  | bytes length =>
      obtain ⟨⟨bytes, -, rfl⟩, rfl, -, -⟩ := isNode
      rfl
  | object kind => exact IsObject.object_eq isNode

/-- Strings and blocks refer to nothing. -/
theorem IsNode.live_eq_nil {sort : Referent} {block : Block} {label : Label}
    {live kept : References} (isNode : IsNode gone sort block label live kept)
    (bytes : kindOf label.object = none) : live = [] := by
  cases sort with
  | bytes length => exact isNode.2.2.1
  | object kind => cases (kindOf_label isNode).symm.trans bytes

/-- A label with room is that of a vector. -/
theorem IsObject.exists_vector {kind : Kind} {object : ImObject Nat} {capacity : Nat} {label : Label}
    {live kept : References} (isObject : IsObject gone kind ⟨object, capacity⟩ label live kept)
    (roomy : label.Roomy) : ∃ vector, object = .vector vector := by
  cases object with
  | vector vector => exact ⟨vector, rfl⟩
  | hashtable table =>
      rw [Label.Roomy, isObject.object_eq] at roomy
      exact roomy.elim
  | bytes => cases isObject.kind_eq
  | torn => cases isObject.kind_eq

/-- One lookup in objects with the same label. -/
theorem agree_object {kind : Kind} {object object' : ImObject Nat} {capacity capacity' : Nat}
    {label label' : Label} {live live' kept kept' : References}
    (isObject : IsObject gone kind ⟨object, capacity⟩ label live kept)
    (isObject' : IsObject gone' kind ⟨object', capacity'⟩ label' live' kept')
    (object_eq : label'.object = label.object) (sound : label.Sound) (sound' : label'.Sound)
    (roomy : label.Roomy) (hop : Hop) {rest : List Hop}
    (agree : List.Forall₂ (Agree h h' rest) live live') :
    answer h' (hop :: rest) object' capacity' = answer h (hop :: rest) object capacity := by
  have roomy' : label'.Roomy := by
    rw [Label.Roomy, object_eq]
    exact roomy
  have forget_eq : forget object' = forget object :=
    isObject'.object_eq.symm.trans (object_eq.trans isObject.object_eq)
  obtain ⟨vector, rfl⟩ := isObject.exists_vector roomy
  obtain ⟨vector', rfl⟩ := isObject'.exists_vector roomy'
  have walks := isObject.sound_iff.mp sound
  have walks' := isObject'.sound_iff.mp sound'
  have fits := isObject.fitting walks.2.1 roomy
  have fits' := isObject'.fitting walks'.2.1 roomy'
  have used_eq : (usedParts (.vector vector')).map forgetPart =
      (usedParts (.vector vector)).map forgetPart := by
    rw [← usedParts_forget, ← usedParts_forget, forget_eq]
  obtain rfl : _ = live := isObject.live_eq
  obtain rfl : _ = live' := isObject'.live_eq
  have buckets := forall₂_references used_eq agree
  simp only [forget, withParts, ImObject.vector.injEq, VectorOf.mk.injEq] at forget_eq
  obtain ⟨size_eq, inuse_eq, attached_eq, -⟩ := forget_eq
  cases hop with
  | key key => rfl
  | position position =>
      rw [fits.answer_eq walks.2.2.1, fits'.answer_eq walks'.2.2.1]
      by_cases inside : 0 ≤ position ∧ position < vector.inuse
      · have less : position.toNat < vector.inuse := by omega
        have count := fits.sized.inuse_le
        have length_eq := fits.sized.length_buckets
        have length_eq' := fits'.sized.length_buckets
        have within : position.toNat < (usedParts (.vector vector)).length := by
          rw [usedParts, List.length_take]
          omega
        have within' : position.toNat < (usedParts (.vector vector')).length := by
          rw [usedParts, List.length_take]
          omega
        obtain ⟨same, agrees⟩ := buckets.get within within'
        have here (vector : ImVector Nat) (inside : 0 ≤ position ∧ position < vector.inuse)
            (within : position.toNat < (usedParts (.vector vector)).length) :
            imGetElement vector position = some (usedParts (.vector vector))[position.toNat] := by
          rw [imGetElement, if_pos inside, ← List.getElem?_eq_getElem within, usedParts,
            List.getElem?_take_of_lt (by omega)]
        rw [here vector inside within, here vector' (by rwa [inuse_eq]) within']
        exact bucketAnswer_congr fits fits' attached_eq size_eq (List.getElem_mem _)
          (List.getElem_mem _) same agrees
      · rw [imGetElement, imGetElement, if_neg inside, inuse_eq, if_neg inside]

/-- Blocks with the same label agree when the objects that their used buckets refer to do. -/
theorem agree_node {path : List Hop} {sort : Referent} {address address' : Nat}
    {block block' : Block} {label label' : Label} {live live' kept kept' : References}
    (found : h.blocks address = some block) (found' : h'.blocks address' = some block')
    (isNode : IsNode gone sort block label live kept)
    (isNode' : IsNode gone' sort block' label' live' kept') (object_eq : label'.object = label.object)
    (sound : kindOf label.object = none ∨ label.Sound)
    (sound' : kindOf label'.object = none ∨ label'.Sound) (roomy : label.Roomy)
    (agree : ∀ hop rest, path = hop :: rest → List.Forall₂ (Agree h h' rest) live live') :
    Agree h h' path (sort, address) (sort, address') := by
  have forget_eq : forget block'.content = forget block.content := by
    rw [← IsNode.forget_eq isNode, ← IsNode.forget_eq isNode', object_eq]
  cases sort with
  | bytes length =>
      obtain ⟨⟨bytes, -, rfl⟩, rfl, -, -⟩ := isNode
      obtain ⟨⟨bytes', -, rfl⟩, rfl, -, -⟩ := isNode'
      cases object_eq
      constructor
      · simp only [answerAt, found, found']
        cases path <;> rfl
      · intro _ _
        simp only [found, found']
  | object kind =>
      obtain ⟨object, capacity⟩ := block
      obtain ⟨object', capacity'⟩ := block'
      have isObject : IsObject gone kind ⟨object, capacity⟩ label live kept := isNode
      have isObject' : IsObject gone' kind ⟨object', capacity'⟩ label' live' kept' := isNode'
      have isSound : label.Sound := by
        apply sound.resolve_left
        simp [kindOf_label isObject]
      have isSound' : label'.Sound := by
        apply sound'.resolve_left
        simp [kindOf_label isObject']
      refine ⟨?_, fun _ impossible => by cases impossible⟩
      simp only [answerAt, found, found']
      cases path with
      | nil =>
          have kind_eq := isObject.kind_eq
          have kind_eq' := isObject'.kind_eq
          simp only at kind_eq kind_eq'
          rw [answer, answer, kind_eq, kind_eq']
      | cons hop rest =>
          exact agree_object isObject isObject' object_eq isSound isSound' roomy hop
            (agree hop rest rfl)

/-- The trees in use have the same contents. -/
inductive Alike : Forest Label → Forest Label → Prop
  | nil : Alike .nil .nil
  | node {label label' : Label} {live live' kept kept' rest rest' : Forest Label}
      (object_eq : label'.object = label.object) (lives : Alike live live')
      (rests : Alike rest rest') : Alike (.node label live kept rest) (.node label' live' kept' rest')

theorem Alike.refl (trees : Forest Label) : Alike trees trees := by
  induction trees with
  | nil => exact .nil
  | node label live kept rest liveIH _ restIH => exact .node rfl liveIH restIH

theorem Twins.alike {trees trees' : Forest Label} (twins : Twins short trees trees') :
    Alike trees trees' := by
  induction twins with
  | nil => exact .nil
  | node object_eq _ _ _ livesIH restsIH => exact .node object_eq livesIH restsIH

theorem SoundTrees.root {label : Label} {live kept rest : Forest Label}
    (sound : SoundTrees (.node label live kept rest)) : kindOf label.object = none ∨ label.Sound :=
  sound.1.imp_right And.left

/-- Sound trees with room and the same contents give the same answers to the path. -/
def AnswersAlike (gone gone' : Nat → Prop) (h h' : Heap Block) (path : List Hop) : Prop :=
  ∀ {references references' : References} {footprint footprint' : Set Nat}
    {trees trees' : Forest Label}, StandsFor gone h references footprint trees →
    StandsFor gone' h' references' footprint' trees' → Alike trees trees' → SoundTrees trees →
    SoundTrees trees' → trees.AllLive Label.Roomy →
    references'.map Prod.fst = references.map Prod.fst →
    List.Forall₂ (Agree h h' path) references references'

/-- The references side by side; what they lead to has one lookup less to answer. -/
theorem answersAlike_step {path : List Hop}
    (shorter : ∀ hop rest, path = hop :: rest → AnswersAlike gone gone' h h' rest) :
    AnswersAlike gone gone' h h' path := by
  intro references references' footprint footprint' trees trees' stands stands' alike sound sound'
    roomy sorts
  induction alike generalizing references references' footprint footprint' with
  | nil =>
      cases stands
      cases stands'
      exact .nil
  | node object_eq lives _ _ restsIH =>
      cases stands with
      | cons found isNode liveStands _ _ _ restStands _ =>
          cases stands' with
          | cons found' isNode' liveStands' _ _ _ restStands' _ =>
              simp only [List.map_cons, List.cons.injEq] at sorts
              obtain ⟨rfl, sorts⟩ := sorts
              refine .cons ?_ (restsIH restStands restStands' sound.2 sound'.2 roomy.2.2 sorts)
              refine agree_node found found' isNode isNode' object_eq sound.root sound'.root roomy.1 ?_
              intro hop rest path_eq
              rcases sound.1 with bytes | ⟨-, liveSound, -⟩
              · rw [IsNode.live_eq_nil isNode bytes,
                  IsNode.live_eq_nil isNode' (object_eq ▸ bytes)]
                exact .nil
              rcases sound'.1 with bytes | ⟨-, liveSound', -⟩
              · rw [IsNode.live_eq_nil isNode (object_eq ▸ bytes), IsNode.live_eq_nil isNode' bytes]
                exact .nil
              refine shorter hop rest path_eq liveStands liveStands' lives liveSound liveSound'
                roomy.2.1 ?_
              rw [← IsNode.live_eq isNode, ← IsNode.live_eq isNode']
              apply sorts_of_forgetPart
              rw [← usedParts_forget, ← usedParts_forget, ← IsNode.forget_eq isNode,
                ← IsNode.forget_eq isNode', object_eq]

/-- By induction on the path. -/
theorem answersAlike (gone gone' : Nat → Prop) (h h' : Heap Block) (path : List Hop) :
    AnswersAlike gone gone' h h' path := by
  induction path with
  | nil =>
      apply answersAlike_step
      intro hop rest impossible
      cases impossible
  | cons hop rest ih =>
      apply answersAlike_step
      intro hop' rest' path_eq
      cases path_eq
      exact ih

end Trees

/-! ## Faithful duplications -/

section Faithful

variable {h h' : Heap Block} {kind : Kind} {address : Nat}
variable {footprint footprint' : Set Nat} {trees trees' : Forest Label}

theorem answerAt_eq {gone gone' : Nat → Prop} {address' : Nat}
    (stands : StandsFor gone h [(.object kind, address)] footprint trees)
    (stands' : StandsFor gone' h' [(.object kind, address')] footprint' trees')
    (alike : Alike trees trees') (sound : SoundTrees trees) (sound' : SoundTrees trees')
    (roomy : trees.AllLive Label.Roomy) (path : List Hop) :
    answerAt h' address' path = answerAt h address path := by
  have agree := answersAlike gone gone' h h' path stands stands' alike sound sound' roomy rfl
  rw [List.forall₂_cons] at agree
  exact agree.1.answer_eq

/-- Objects in different blocks are independent. -/
theorem independent {gone : Nat → Prop} {one other : Nat} (bounded : h.Bounded)
    (stands : StandsFor gone h [(.object kind, one)] footprint trees)
    (stands' : StandsFor gone h [(.object kind, other)] footprint' trees')
    (apart : Disjoint footprint footprint') (sound : SoundTrees trees) (sound' : SoundTrees trees')
    (roomy : trees.AllLive Label.Roomy) (roomy' : trees'.AllLive Label.Roomy) :
    Independent h one other := by
  constructor
  · intro x block leads here
    exact contained_of_roomy stands sound roomy (List.mem_singleton_self _) leads here
  · intro later same
    have unchanged : ∀ x ∈ footprint', later.blocks x = h.blocks x := by
      intro x inside
      obtain ⟨content, here⟩ := stands'.allocated x inside
      apply same x (bounded.lt here)
      intro leads
      exact Set.disjoint_left.mp apart
        (mem_footprint stands sound (List.mem_singleton_self _) leads) inside
    exact answerAt_eq stands' (stands'.congr unchanged) (Alike.refl trees') sound' sound' roomy'

/-- The duplication goes through, and no call leaves the block of the original or of the copy. -/
theorem DuplicatesFaithfully.sound_and_roomy (faithful : DuplicatesFaithfully h kind address)
    (bounded : h.Bounded)
    (stands : StandsFor h.Freed h [(.object kind, address)] footprint trees) :
    SoundTrees trees ∧ trees.AllLive Label.Roomy := by
  obtain ⟨fuel, copy, h', run, -, -, original, duplicate⟩ := faithful
  have yields := (copySpec h.Freed fuel).copies ⟨bounded, fun _ freed => freed⟩ stands
  rw [run] at yields
  obtain ⟨sound, -, first, second, trees₁, trees₂, stands₁, stands₂, -, -, twins₁, twins₂, -⟩ :=
    yields
  refine ⟨soundTrees_iff.mpr ⟨fuel, sound⟩, roomy_of_contained stands₁ stands₂ twins₁ twins₂ ?_ ?_⟩
  · simpa [AllContained] using original.contained
  · simpa [AllContained] using duplicate.contained

theorem duplicatesFaithfully_of_roomy (bounded : h.Bounded)
    (stands : StandsFor h.Freed h [(.object kind, address)] footprint trees)
    (sound : SoundTrees trees) (roomy : trees.AllLive Label.Roomy) :
    DuplicatesFaithfully h kind address := by
  obtain ⟨fuel, within⟩ := soundTrees_iff.mp sound
  have yields := (copySpec h.Freed fuel).copies ⟨bounded, fun _ freed => freed⟩ stands
  cases run : imDuplicateWithInfo fuel kind address h with
  | none =>
      rw [run] at yields
      exact absurd within yields
  | some result =>
      obtain ⟨copy, h'⟩ := result
      rw [run] at yields
      obtain ⟨-, changes, first, second, trees₁, trees₂, stands₁, stands₂, apart, -, twins₁, twins₂,
        within₁, within₂⟩ := yields
      have sound₁ := soundTrees_iff.mpr ⟨fuel, within₁⟩
      have sound₂ := soundTrees_iff.mpr ⟨fuel, within₂⟩
      have roomy₁ := twins₁.roomy roomy
      have roomy₂ := twins₂.roomy roomy
      exact ⟨fuel, copy, h', run, answerAt_eq stands stands₂ twins₂.alike sound sound₂ roomy,
        answerAt_eq stands stands₁ twins₁.alike sound sound₁ roomy,
        independent changes.bounded stands₁ stands₂ apart sound₁ sound₂ roomy₁ roomy₂,
        independent changes.bounded stands₂ stands₁ apart.symm sound₂ sound₁ roomy₂ roomy₁⟩

/-- A duplication is faithful exactly when it can walk over all objects and the ones in use have
room for the bucket that it does not count. -/
theorem duplicatesFaithfully_iff (bounded : h.Bounded)
    (stands : StandsFor h.Freed h [(.object kind, address)] footprint trees) :
    DuplicatesFaithfully h kind address ↔ SoundTrees trees ∧ trees.AllLive Label.Roomy :=
  ⟨fun faithful => faithful.sound_and_roomy bounded stands,
    fun both => duplicatesFaithfully_of_roomy bounded stands both.1 both.2⟩

/-- A vector that was serialised and emptied, with a string. -/
def roomyVector : ImVector Nat := ⟨1, 1, ⟨32, 0, fun _ => none⟩, [⟨2, .externalString 2 1⟩]⟩

def roomyHeap : Heap Block where
  blocks
    | 0 => some ⟨.vector roomyVector, 96⟩
    | 1 => some ⟨.bytes [97, 0], 2⟩
    | _ => none
  next := 2

theorem duplicatesFaithfully_roomyHeap : DuplicatesFaithfully roomyHeap .vector 0 := by
  have bounded : roomyHeap.Bounded := by
    rintro (_ | _ | x) inside
    · cases inside
    · exact absurd inside (by decide)
    · rfl
  have isObject : IsObject roomyHeap.Freed .vector ⟨.vector roomyVector, 96⟩
      ⟨forget (.vector roomyVector), 96, false⟩ [(.bytes 2, 1)] [] := by
    refine ⟨rfl, ⟨⟨rfl, by decide⟩, by decide⟩, ?_, ?_, Or.inl rfl, rfl, rfl, rfl, .nil⟩
    · simp [parts, roomyVector, ProperSize]
    · simp [usedParts, roomyVector, attachedAccesses]
  have stands : StandsFor roomyHeap.Freed roomyHeap [(.object .vector, 0)] _ _ :=
    .cons rfl isObject
      (.cons rfl ⟨⟨[97, 0], rfl, rfl⟩, rfl, rfl, rfl⟩ .nil .nil (by simp) (by simp) .nil (by simp))
      .nil (by simp) (by simp) .nil (by simp)
  refine (duplicatesFaithfully_iff bounded stands).mpr ⟨?_, ?_⟩
  · refine ⟨Or.inr ⟨⟨rfl, by decide, ?_⟩, ⟨Or.inl rfl, trivial⟩, trivial⟩, trivial⟩
    simp [parts, forget, withParts, roomyVector, forgetPart, IsAttachedObject]
  · exact ⟨le_rfl, ⟨trivial, trivial, trivial⟩, trivial⟩

/-- A hash table that was just made. -/
def freshTable : ImObject Nat := .hashtable (imInitializeHashtable 0)

def freshHeap : Heap Block where
  blocks
    | 0 => some ⟨freshTable, freshTable.size⟩
    | _ => none
  next := 1

theorem not_duplicatesFaithfully_freshHeap : ¬ DuplicatesFaithfully freshHeap .nested 0 := by
  intro faithful
  have empty : ∀ bucket ∈ parts freshTable, bucket = ⟨0, .empty⟩ := by
    intro bucket member
    obtain ⟨blank, isBlank, rfl⟩ := List.mem_map.mp member
    rw [List.eq_of_mem_replicate isBlank]
    rfl
  have nothing : (parts freshTable).filterMap reference = [] := by
    rw [List.filterMap_eq_nil_iff]
    intro bucket member
    rw [empty bucket member]
    rfl
  have bounded : freshHeap.Bounded := by
    rintro (_ | x) inside
    · cases inside
    · rfl
  have isObject : IsObject freshHeap.Freed .nested ⟨freshTable, freshTable.size⟩
      ⟨forget freshTable, freshTable.size, false⟩ [] [] := by
    refine ⟨rfl, imInitializeHashtable_inv 0, ?_, ?_, Or.inl rfl, rfl, rfl, nothing, .nil⟩
    · intro bucket member
      rw [empty bucket member]
      trivial
    · intro bucket member access accessed
      rw [empty bucket member] at accessed
      cases accessed
  have stands : StandsFor freshHeap.Freed freshHeap [(.object .nested, 0)] _ _ :=
    .cons rfl isObject .nil .nil (by simp) (by simp) .nil (by simp)
  obtain ⟨-, impossible, -⟩ := faithful.sound_and_roomy bounded stands
  exact impossible

end Faithful

end FrameCode.ImDuplicate
