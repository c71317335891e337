import FrameCode.CircularList
import Mathlib.Logic.Relation

/-!
# The lists of `lib_list.h`

A list is a circle of `struct list_head`s through a head that stands for no entry.
Whatever is done with any number of such lists, each of them behaves as the plain
list of its entries, forwards and backwards.

A list head is any `α`.  A null pointer that is followed has no defined meaning: the
result is `none`.
-/

namespace FrameCode.LibList

open CircularList

variable {α : Type} [DecidableEq α]

/-! ## The functions of the header -/

def setNext (links : Links α) (node : α) (pointer : Option α) : Links α :=
  { links with next := Function.update links.next node pointer }

def setPrev (links : Links α) (node : α) (pointer : Option α) : Links α :=
  { links with prev := Function.update links.prev node pointer }

/-- `INIT_LIST_HEAD`. -/
def initListHead (links : Links α) (list : α) : Links α :=
  let links := setNext links list (some list)
  setPrev links list (some list)

/-- `__list_add`. -/
def listAddBetween (links : Links α) (new prev next : α) : Links α :=
  let links := setPrev links next (some new)
  let links := setNext links new (some next)
  let links := setPrev links new (some prev)
  setNext links prev (some new)

def listAdd (links : Links α) (new head : α) : Option (Links α) :=
  (links.next head).map fun next => listAddBetween links new head next

def listAddTail (links : Links α) (new head : α) : Option (Links α) :=
  (links.prev head).map fun prev => listAddBetween links new prev head

/-- `__list_del`. -/
def listDelBetween (links : Links α) (prev next : α) : Links α :=
  let links := setPrev links next (some prev)
  setNext links prev (some next)

/-- The call of `__list_del` with the neighbours of an entry. -/
def unlink (links : Links α) (entry : α) : Option (Links α) := do
  let prev ← links.prev entry
  let next ← links.next entry
  some (listDelBetween links prev next)

def listDel (links : Links α) (entry : α) : Option (Links α) :=
  (unlink links entry).map fun links =>
    let links := setNext links entry none
    setPrev links entry none

def listDelInit (links : Links α) (entry : α) : Option (Links α) :=
  (unlink links entry).map fun links => initListHead links entry

def listMove (links : Links α) (list head : α) : Option (Links α) :=
  (unlink links list).bind fun links => listAdd links list head

def listMoveTail (links : Links α) (list head : α) : Option (Links α) :=
  (unlink links list).bind fun links => listAddTail links list head

def listEmpty (links : Links α) (head : α) : Bool := links.next head = some head

/-- `__list_splice`. -/
def listSpliceBetween (links : Links α) (list head : α) : Option (Links α) := do
  let first ← links.next list
  let last ← links.prev list
  let at_ ← links.next head
  let links := setPrev links first (some head)
  let links := setNext links head (some first)
  let links := setNext links last (some at_)
  some (setPrev links at_ (some last))

def listSplice (links : Links α) (list head : α) : Option (Links α) :=
  if listEmpty links list then some links else listSpliceBetween links list head

def listSpliceInit (links : Links α) (list head : α) : Option (Links α) :=
  if listEmpty links list then some links
  else (listSpliceBetween links list head).map fun links => initListHead links list

/-- The loop of `list_for_each` from a position on: the entries it visits.  It may run
for at most `fuel` rounds. -/
def listForEachFrom (links : Links α) (head : α) : Nat → Option α → Option (List α)
  | 0, _ => none
  | _ + 1, none => none
  | fuel + 1, some pos =>
      if pos = head then some []
      else (listForEachFrom links head fuel (links.next pos)).map (pos :: ·)

def listForEach (links : Links α) (fuel : Nat) (head : α) : Option (List α) :=
  listForEachFrom links head fuel (links.next head)

/-- `list_for_each_prev`, the same loop over the other pointers. -/
def listForEachPrev (links : Links α) (fuel : Nat) (head : α) : Option (List α) :=
  listForEach ⟨links.prev, links.next⟩ fuel head

/-- The loop of `list_for_each_safe`, deleting the entries that a test chooses. -/
def listForEachSafeFrom (chosen : α → Bool) (head : α) :
    Nat → Links α → α → α → Option (Links α)
  | 0, _, _, _ => none
  | fuel + 1, links, pos, n =>
      if pos = head then some links
      else do
        let links ← if chosen pos then listDel links pos else some links
        let following ← links.next n
        listForEachSafeFrom chosen head fuel links n following

def listForEachSafe (chosen : α → Bool) (links : Links α) (fuel : Nat) (head : α) :
    Option (Links α) := do
  let pos ← links.next head
  let n ← links.next pos
  listForEachSafeFrom chosen head fuel links pos n

end FrameCode.LibList
