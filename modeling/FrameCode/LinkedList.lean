import Mathlib.Data.List.Nodup
import Mathlib.Logic.Function.Basic

/-!
# Singly linked lists in a heap

A list of nodes linked by their `next` pointers, and the two pieces of pointer
surgery a queue needs: hanging a node behind the last one and taking the first
one off.
-/

namespace FrameCode.LinkedList

structure Node (τ : Type) where
  value : τ
  next : Option Nat

/-- The nodes reached from a pointer, with their values. -/
inductive Chain {τ : Type} (nodes : Nat → Option (Node τ)) : Option Nat → List (Nat × τ) → Prop
  | nil : Chain nodes none []
  | cons {address : Nat} {node : Node τ} {items : List (Nat × τ)}
      (found : nodes address = some node) (rest : Chain nodes node.next items) :
      Chain nodes (some address) ((address, node.value) :: items)

namespace Chain

variable {τ : Type} {nodes : Nat → Option (Node τ)} {head : Option Nat} {items : List (Nat × τ)}

/-- A chain only depends on its own nodes. -/
theorem congr {after : Nat → Option (Node τ)} (chain : Chain nodes head items)
    (same : ∀ address ∈ items.map Prod.fst, after address = nodes address) :
    Chain after head items := by
  induction chain with
  | nil => exact .nil
  | @cons address node items found rest ih =>
      have foundAfter : after address = some node := by
        rw [same address (by simp), found]
      exact .cons foundAfter (ih fun other member => same other (by simp [member]))

theorem update {address : Nat} {node : Option (Node τ)} (chain : Chain nodes head items)
    (outside : address ∉ items.map Prod.fst) :
    Chain (Function.update nodes address node) head items := by
  refine chain.congr fun other member => ?_
  rw [Function.update_of_ne]
  rintro rfl
  exact outside member

theorem node_of_mem {address : Nat} (chain : Chain nodes head items)
    (member : address ∈ items.map Prod.fst) : ∃ node, nodes address = some node := by
  induction chain with
  | nil => cases member
  | cons found rest ih =>
      rcases List.mem_cons.mp member with rfl | later
      · exact ⟨_, found⟩
      · exact ih later

/-- The next pointer of a node of a chain leads to another node of it. -/
theorem next_mem {address next : Nat} {node : Node τ} (chain : Chain nodes head items)
    (member : address ∈ items.map Prod.fst) (found : nodes address = some node)
    (linked : node.next = some next) : next ∈ items.map Prod.fst := by
  induction chain with
  | nil => cases member
  | @cons first firstNode items firstFound rest ih =>
      rcases List.mem_cons.mp member with rfl | later
      · obtain rfl : firstNode = node := Option.some.inj (firstFound.symm.trans found)
        rw [linked] at rest
        cases rest with
        | cons nextFound tail => simp
      · exact List.mem_cons_of_mem _ (ih later)

theorem head_mem {address : Nat} (chain : Chain nodes (some address) items) :
    address ∈ items.map Prod.fst := by
  cases chain with
  | cons found rest => simp

/-- Following a next pointer comes closer to the end of the chain. -/
theorem dropWhile_next_lt {address next : Nat} {node : Node τ} (chain : Chain nodes head items)
    (nodup : (items.map Prod.fst).Nodup) (member : address ∈ items.map Prod.fst)
    (found : nodes address = some node) (linked : node.next = some next) :
    ((items.map Prod.fst).dropWhile (· ≠ next)).length <
      ((items.map Prod.fst).dropWhile (· ≠ address)).length := by
  induction chain with
  | nil => cases member
  | @cons first firstNode items firstFound rest ih =>
      rw [List.map_cons, List.nodup_cons] at nodup
      rcases List.mem_cons.mp member with rfl | later
      · obtain rfl : firstNode = node := Option.some.inj (firstFound.symm.trans found)
        rw [linked] at rest
        have different : address ≠ next := by
          rintro rfl
          exact nodup.1 rest.head_mem
        have shorter := ((items.map Prod.fst).dropWhile_sublist (· ≠ next)).length_le
        simp only [List.map_cons, List.dropWhile_cons, different, ne_eq, not_false_eq_true,
          decide_true, if_true, not_true_eq_false, decide_false, Bool.false_eq_true, if_false,
          List.length_cons] at shorter ⊢
        omega
      · have different : first ≠ address := by
          rintro rfl
          exact nodup.1 later
        have nextDifferent : first ≠ next := by
          rintro rfl
          exact nodup.1 (rest.next_mem later found linked)
        simpa [List.dropWhile_cons, different, nextDifferent] using ih nodup.2 later

theorem eq_nil (chain : Chain nodes none items) : items = [] := by
  cases chain
  rfl

/-- Hanging a new node behind the last node of a chain. -/
theorem append {last new : Nat} {node newNode : Node τ} (chain : Chain nodes head items)
    (nodup : (items.map Prod.fst).Nodup) (member : last ∈ items.map Prod.fst)
    (found : nodes last = some node) (isLast : node.next = none)
    (newFound : nodes new = some newNode) (newLast : newNode.next = none)
    (fresh : new ∉ items.map Prod.fst) :
    Chain (Function.update nodes last (some { node with next := some new })) head
      (items ++ [(new, newNode.value)]) := by
  induction chain with
  | nil => cases member
  | @cons first firstNode items firstFound rest ih =>
      rw [List.map_cons, List.nodup_cons] at nodup
      rw [List.map_cons, List.mem_cons, not_or] at fresh
      rcases List.mem_cons.mp member with rfl | later
      · obtain rfl : firstNode = node := Option.some.inj (firstFound.symm.trans found)
        rw [isLast] at rest
        obtain rfl := rest.eq_nil
        have linked : Function.update nodes last (some { firstNode with next := some new }) last =
            some { firstNode with next := some new } := Function.update_self ..
        have newKept : Function.update nodes last (some { firstNode with next := some new }) new =
            some newNode := by
          rw [Function.update_of_ne fresh.1, newFound]
        have tail : Chain (Function.update nodes last
            (some { firstNode with next := some new })) newNode.next [] := newLast ▸ .nil
        have extended := Chain.cons linked (Chain.cons newKept tail)
        exact extended
      · have different : first ≠ last := by
          rintro rfl
          exact nodup.1 later
        have firstKept : Function.update nodes last (some { node with next := some new }) first =
            some firstNode := by
          rw [Function.update_of_ne different, firstFound]
        exact .cons firstKept (ih nodup.2 later fresh.2)

end Chain

end FrameCode.LinkedList
