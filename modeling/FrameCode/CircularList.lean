import Mathlib.Data.List.Nodup
import Mathlib.Logic.Function.Basic

/-!
# Circular doubly linked lists

Nodes linked both ways into a circle, and the one piece of pointer surgery that all
operations on such circles consist of: linking a node to the one that is to follow it.
A circle has no first node, so each operation is proved where it is easiest to see,
right behind the node that the circle is said to start with.
-/

namespace FrameCode.CircularList

variable {α : Type}

/-- The two pointers of every node. -/
structure Links (α : Type) where
  next : α → Option α
  prev : α → Option α

/-- One node follows another. -/
def Adjacent (links : Links α) (first second : α) : Prop :=
  links.next first = some second ∧ links.prev second = some first

/-- The way from one node to another through the nodes between them. -/
def Segment (links : Links α) : α → List α → α → Prop
  | first, [], last => Adjacent links first last
  | first, node :: nodes, last => Adjacent links first node ∧ Segment links node nodes last

namespace Segment

variable {links : Links α} {first node last : α} {nodes : List α}

theorem append_iff {before after : List α} :
    Segment links first (before ++ node :: after) last ↔
      Segment links first before node ∧ Segment links node after last := by
  induction before generalizing first with
  | nil => exact Iff.rfl
  | cons other before ih => simp only [List.cons_append, Segment, ih, and_assoc]

/-- A segment depends on no other pointers than its own. -/
theorem congr {after : Links α} (segment : Segment links first nodes last)
    (next : ∀ node ∈ first :: nodes, after.next node = links.next node)
    (prev : ∀ node, node ∈ nodes ∨ node = last → after.prev node = links.prev node) :
    Segment after first nodes last := by
  induction nodes generalizing first with
  | nil =>
      exact ⟨(next first List.mem_cons_self).trans segment.1,
        (prev last (Or.inr rfl)).trans segment.2⟩
  | cons second nodes ih =>
      obtain ⟨adjacent, rest⟩ := segment
      refine ⟨⟨(next first List.mem_cons_self).trans adjacent.1,
        (prev second (Or.inl List.mem_cons_self)).trans adjacent.2⟩, ih rest ?_ ?_⟩
      · exact fun node member => next node (List.mem_cons_of_mem _ member)
      · exact fun node member => prev node (member.imp_left (List.mem_cons_of_mem _))

theorem next_eq (segment : Segment links first nodes last) :
    links.next first = some (nodes.headD last) := by
  cases nodes with
  | nil => exact segment.1
  | cons node nodes => exact segment.1.1

theorem prev_eq (segment : Segment links first nodes last) :
    links.prev last = some (nodes.getLastD first) := by
  induction nodes generalizing first with
  | nil => exact segment.2
  | cons node nodes ih =>
      rw [ih segment.2]
      cases nodes <;> rfl

end Segment

/-- The pointers of all but some nodes are the same. -/
def AgreeOff (touched : List α) (links after : Links α) : Prop :=
  ∀ node, node ∉ touched →
    after.next node = links.next node ∧ after.prev node = links.prev node

theorem AgreeOff.refl (touched : List α) (links : Links α) : AgreeOff touched links links :=
  fun _ _ => ⟨rfl, rfl⟩

/-- A circle of nodes, told from any of them. -/
def Cycle (links : Links α) : List α → Prop
  | [] => False
  | first :: nodes => Segment links first nodes first ∧ (first :: nodes).Nodup

section Surgery

variable [DecidableEq α]

/-- Make one node follow another. -/
def join (links : Links α) (first second : α) : Links α where
  next := Function.update links.next first (some second)
  prev := Function.update links.prev second (some first)

theorem adjacent_join (links : Links α) (first second : α) :
    Adjacent (join links first second) first second :=
  ⟨Function.update_self .., Function.update_self ..⟩

theorem Adjacent.join_of_ne {links : Links α} {first second before after : α}
    (adjacent : Adjacent links first second) (notFirst : first ≠ before)
    (notSecond : second ≠ after) : Adjacent (join links before after) first second :=
  ⟨(Function.update_of_ne notFirst ..).trans adjacent.1,
    (Function.update_of_ne notSecond ..).trans adjacent.2⟩

theorem Segment.join_of_not_mem {links : Links α} {first last before after : α} {nodes : List α}
    (segment : Segment links first nodes last) (notFirst : before ∉ first :: nodes)
    (notInside : after ∉ nodes) (notLast : after ≠ last) :
    Segment (join links before after) first nodes last := by
  refine segment.congr (fun node member => ?_) fun node member => ?_
  · exact Function.update_of_ne (ne_of_mem_of_not_mem member notFirst) ..
  · refine Function.update_of_ne ?_ ..
    rintro rfl
    exact member.elim notInside fun same => notLast same

theorem AgreeOff.join {links middle : Links α} {touched : List α} {first second : α}
    (agree : AgreeOff touched links middle) (firstInside : first ∈ touched)
    (secondInside : second ∈ touched) : AgreeOff touched links (join middle first second) := by
  intro node outside
  obtain ⟨next, prev⟩ := agree node outside
  have notFirst := (ne_of_mem_of_not_mem firstInside outside).symm
  have notSecond := (ne_of_mem_of_not_mem secondInside outside).symm
  exact ⟨(Function.update_of_ne notFirst ..).trans next,
    (Function.update_of_ne notSecond ..).trans prev⟩

omit [DecidableEq α] in
theorem headD_mem {first : α} {nodes : List α} : nodes.headD first ∈ first :: nodes := by
  cases nodes <;> simp

omit [DecidableEq α] in
theorem getLastD_mem {first : α} {nodes : List α} : nodes.getLastD first ∈ first :: nodes := by
  cases nodes with
  | nil => exact List.mem_singleton_self first
  | cons node nodes =>
      rw [List.getLastD_eq_getLast?, List.getLast?_eq_some_getLast (List.cons_ne_nil _ _)]
      exact List.mem_cons_of_mem _ (List.getLast_mem _)

/-- The last node of a segment gets another follower. -/
theorem Segment.close {links : Links α} {first old new : α} {nodes : List α}
    (segment : Segment links first nodes old) (nodup : (first :: nodes).Nodup)
    (fresh : new ∉ nodes) : Segment (join links (nodes.getLastD first) new) first nodes new := by
  induction nodes generalizing first with
  | nil => exact adjacent_join links first new
  | cons node nodes ih =>
      rw [List.mem_cons, not_or] at fresh
      have last : (node :: nodes).getLastD first = nodes.getLastD node := by cases nodes <;> rfl
      rw [last]
      obtain ⟨absent, nodup⟩ := List.nodup_cons.mp nodup
      refine ⟨segment.1.join_of_ne ?_ (Ne.symm fresh.1), ih segment.2 nodup fresh.2⟩
      exact Ne.symm (ne_of_mem_of_not_mem getLastD_mem absent)

end Surgery

namespace Cycle

variable {links : Links α}

theorem rotate {before after : List α} (cycle : Cycle links (before ++ after)) :
    Cycle links (after ++ before) := by
  cases before with
  | nil => simpa using cycle
  | cons first before =>
      cases after with
      | nil => simpa using cycle
      | cons second after =>
          obtain ⟨segment, nodup⟩ := cycle
          have halves := Segment.append_iff.mp segment
          have turned : (second :: after ++ first :: before).Nodup :=
            List.perm_append_comm.nodup_iff.mp nodup
          exact ⟨Segment.append_iff.mpr ⟨halves.2, halves.1⟩, turned⟩

/-- The node that follows another. -/
theorem next_eq {head node : α} {before after : List α}
    (cycle : Cycle links (head :: (before ++ node :: after))) :
    links.next node = some (after.headD head) := by
  rw [← List.cons_append] at cycle
  have rotated : Cycle links (node :: (after ++ head :: before)) := cycle.rotate
  rw [rotated.1.next_eq]
  cases after <;> rfl

theorem congr {after : Links α} {nodes : List α} (cycle : Cycle links nodes)
    (next : ∀ node ∈ nodes, after.next node = links.next node)
    (prev : ∀ node ∈ nodes, after.prev node = links.prev node) : Cycle after nodes := by
  cases nodes with
  | nil => exact cycle
  | cons first nodes =>
      refine ⟨cycle.1.congr next fun node member => prev node ?_, cycle.2⟩
      rcases member with inside | rfl
      · exact List.mem_cons_of_mem _ inside
      · exact List.mem_cons_self

/-- A circle is not touched by changes elsewhere. -/
theorem of_agreeOff {after : Links α} {nodes touched : List α} (cycle : Cycle links nodes)
    (agree : AgreeOff touched links after) (apart : List.Disjoint touched nodes) :
    Cycle after nodes :=
  cycle.congr (fun node member => (agree node fun inside => apart inside member).1)
    fun node member => (agree node fun inside => apart inside member).2

theorem nodup {nodes : List α} (cycle : Cycle links nodes) : nodes.Nodup := by
  cases nodes with
  | nil => exact cycle.elim
  | cons first nodes => exact cycle.2

theorem next_head {first : α} {nodes : List α} (cycle : Cycle links (first :: nodes)) :
    links.next first = some (nodes.headD first) :=
  cycle.1.next_eq

theorem prev_head {first : α} {nodes : List α} (cycle : Cycle links (first :: nodes)) :
    links.prev first = some (nodes.getLastD first) :=
  cycle.1.prev_eq

/-- Told backwards, a circle is one for the pointers exchanged. -/
theorem reverse {first : α} {nodes : List α} (cycle : Cycle links (first :: nodes)) :
    Cycle ⟨links.prev, links.next⟩ (first :: nodes.reverse) := by
  have segment {start stop : α} {nodes : List α} (forward : Segment links start nodes stop) :
      Segment ⟨links.prev, links.next⟩ stop nodes.reverse start := by
    induction nodes generalizing start with
    | nil => exact ⟨forward.2, forward.1⟩
    | cons node nodes ih =>
        rw [List.reverse_cons]
        exact Segment.append_iff.mpr ⟨ih forward.2, forward.1.2, forward.1.1⟩
  refine ⟨segment cycle.1, ?_⟩
  have nodup := cycle.2
  rw [List.nodup_cons] at nodup ⊢
  exact ⟨by simpa using nodup.1, List.nodup_reverse.mpr nodup.2⟩

variable [DecidableEq α]

/-- A node that is linked to itself is a circle. -/
theorem single (links : Links α) (node : α) : Cycle (join links node node) [node] :=
  ⟨adjacent_join links node node, List.nodup_singleton node⟩

/-- Putting a new node behind the first. -/
theorem insert {first new : α} {nodes : List α} (cycle : Cycle links (first :: nodes))
    (fresh : new ∉ first :: nodes) :
    Cycle (join (join links new (nodes.headD first)) first new) (first :: new :: nodes) := by
  obtain ⟨segment, nodup⟩ := cycle
  rw [List.mem_cons, not_or] at fresh
  obtain ⟨notFirst, notInside⟩ := fresh
  refine ⟨⟨adjacent_join .., ?_⟩, ?_⟩
  · cases nodes with
    | nil => exact (adjacent_join links new first).join_of_ne notFirst (Ne.symm notFirst)
    | cons node nodes =>
        simp only [List.mem_cons, not_or] at notInside
        simp only [List.nodup_cons, List.mem_cons, not_or] at nodup
        refine ⟨(adjacent_join links new node).join_of_ne notFirst (Ne.symm notInside.1), ?_⟩
        have rest : Segment (join links new node) node nodes first :=
          segment.2.join_of_not_mem (by simpa using notInside) nodup.2.1 (Ne.symm nodup.1.1)
        exact rest.join_of_not_mem (by simpa using nodup.1) notInside.2 notFirst
  · refine List.nodup_cons.mpr ⟨?_, List.nodup_cons.mpr ⟨notInside, nodup.of_cons⟩⟩
    rw [List.mem_cons, not_or]
    exact ⟨Ne.symm notFirst, (List.nodup_cons.mp nodup).1⟩

/-- Putting a new node before the first. -/
theorem insertLast {first new : α} {nodes : List α} (cycle : Cycle links (first :: nodes))
    (fresh : new ∉ first :: nodes) :
    Cycle (join (join links new first) (nodes.getLastD first) new) (first :: (nodes ++ [new])) := by
  rcases List.eq_nil_or_concat nodes with rfl | ⟨before, last, rfl⟩
  · exact cycle.insert fresh
  · rw [List.concat_eq_append] at cycle fresh ⊢
    have turned : Cycle links ([last] ++ first :: before) := Cycle.rotate cycle
    have outside : new ∉ last :: first :: before := by
      simp only [List.mem_cons, List.mem_append, not_or] at fresh ⊢
      tauto
    have inserted := turned.insert outside
    rw [List.getLastD_concat]
    have back : Cycle _ ([last, new] ++ first :: before) := inserted
    simpa using back.rotate

/-- Taking the first node out of a circle with other nodes. -/
theorem remove {first : α} {nodes : List α} (cycle : Cycle links (first :: nodes))
    (others : nodes ≠ []) :
    Cycle (join links (nodes.getLastD first) (nodes.headD first)) nodes := by
  obtain ⟨segment, nodup⟩ := cycle
  have nodup := nodup.of_cons
  cases nodes with
  | nil => exact absurd rfl others
  | cons second nodes =>
      have last : (second :: nodes).getLastD first = nodes.getLastD second := by cases nodes <;> rfl
      rw [last]
      exact ⟨segment.2.close nodup (List.nodup_cons.mp nodup).1, nodup⟩

/-- Putting the other nodes of one circle behind the first node of another. -/
theorem splice {head list first : α} {added nodes : List α} (cycle : Cycle links (head :: nodes))
    (other : Cycle links (list :: first :: added))
    (disjoint : List.Disjoint (head :: nodes) (first :: added)) :
    Cycle (join (join links head first) (added.getLastD first) (nodes.headD head))
      (head :: first :: (added ++ nodes)) := by
  obtain ⟨segment, nodup⟩ := cycle
  obtain ⟨⟨-, inner⟩, otherNodup⟩ := other
  obtain ⟨notList, addedNodup⟩ := List.nodup_cons.mp otherNodup
  have headOutside : head ∉ first :: added := disjoint List.mem_cons_self
  have nodesOutside {node : α} (member : node ∈ nodes) : node ∉ first :: added :=
    disjoint (List.mem_cons_of_mem _ member)
  have notFirst : first ≠ head := ne_of_mem_of_not_mem List.mem_cons_self headOutside
  have last : added.getLastD first ∈ first :: added := getLastD_mem
  have begun : Segment (join links head first) first added list := by
    apply inner.join_of_not_mem headOutside (List.nodup_cons.mp addedNodup).1
    rintro rfl
    exact notList List.mem_cons_self
  refine ⟨⟨?_, ?_⟩, ?_⟩
  · refine (adjacent_join links head first).join_of_ne ?_ ?_
    · exact Ne.symm (ne_of_mem_of_not_mem last headOutside)
    · cases nodes with
      | nil => exact notFirst
      | cons node nodes =>
          exact ne_of_mem_of_not_mem List.mem_cons_self (nodesOutside List.mem_cons_self)
  · cases nodes with
    | nil =>
        rw [List.append_nil]
        exact begun.close addedNodup fun inside => headOutside (List.mem_cons_of_mem _ inside)
    | cons node nodes =>
        have nodeOutside := nodesOutside List.mem_cons_self
        obtain ⟨notHead, nodup⟩ := List.nodup_cons.mp nodup
        refine Segment.append_iff.mpr ⟨?_, ?_⟩
        · exact begun.close addedNodup fun inside => nodeOutside (List.mem_cons_of_mem _ inside)
        · have rest : Segment (join links head first) node nodes head :=
            segment.2.join_of_not_mem notHead
              (fun inside => nodesOutside (List.mem_cons_of_mem _ inside) List.mem_cons_self)
              notFirst
          refine rest.join_of_not_mem (fun inside => ?_) (List.nodup_cons.mp nodup).1 ?_
          · exact nodesOutside inside last
          · exact ne_of_mem_of_not_mem List.mem_cons_self notHead
  · have together : (first :: added ++ nodes).Nodup :=
      addedNodup.append nodup.of_cons fun node inside member => nodesOutside member inside
    refine List.nodup_cons.mpr ⟨fun member => ?_, together⟩
    rw [← List.cons_append, List.mem_append] at member
    rcases member with inside | later
    · exact headOutside inside
    · exact (List.nodup_cons.mp nodup).1 later

end Cycle

end FrameCode.CircularList
