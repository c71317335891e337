import FrameCode.LibList

/-!
# What the lists of `lib_list.h` mean

Any number of lists live in one memory.  Every function of the header does to the
circles of pointers what its meaning does to the plain lists of entries, and so does
every sequence of calls.
-/

namespace FrameCode.LibList

open CircularList

variable {α : Type}

/-- The entries of the list at every head, where there is one. -/
abbrev Lists (α : Type) := α → Option (List α)

/-- The node is no entry of a list. -/
def Free (lists : Lists α) (node : α) : Prop :=
  ∀ head items, lists head = some items → node ∉ items

/-- The pointers link every list into a circle through its head, and the circles have no
node in common. -/
structure Represents (links : Links α) (lists : Lists α) : Prop where
  cycle : ∀ head items, lists head = some items → Cycle links (head :: items)
  disjoint : ∀ head other items others, head ≠ other → lists head = some items →
    lists other = some others → List.Disjoint (head :: items) (other :: others)

inductive Op (α : Type)
  | initListHead (list : α)
  | listAdd (new head : α)
  | listAddTail (new head : α)
  | listDel (entry : α)
  | listDelInit (entry : α)
  | listMove (list head : α)
  | listMoveTail (list head : α)
  | listSplice (list head : α)
  | listSpliceInit (list head : α)

section Meaning

variable [DecidableEq α]

def Op.run (links : Links α) : Op α → Option (Links α)
  | .initListHead list => some (LibList.initListHead links list)
  | .listAdd new head => LibList.listAdd links new head
  | .listAddTail new head => LibList.listAddTail links new head
  | .listDel entry => LibList.listDel links entry
  | .listDelInit entry => LibList.listDelInit links entry
  | .listMove list head => LibList.listMove links list head
  | .listMoveTail list head => LibList.listMoveTail links list head
  | .listSplice list head => LibList.listSplice links list head
  | .listSpliceInit list head => LibList.listSpliceInit links list head

/-- What each function is for.  It may be called on the entries and heads of lists, and
with new nodes that are no entries. -/
inductive Meaning (lists : Lists α) : Op α → Lists α → Prop
  | initListHead {list : α} (free : Free lists list) :
      Meaning lists (.initListHead list) (Function.update lists list (some []))
  | listAdd {new head : α} {items : List α} (free : Free lists new) (other : new ≠ head)
      (found : lists head = some items) :
      Meaning lists (.listAdd new head)
        (Function.update (Function.update lists new none) head (some (new :: items)))
  | listAddTail {new head : α} {items : List α} (free : Free lists new) (other : new ≠ head)
      (found : lists head = some items) :
      Meaning lists (.listAddTail new head)
        (Function.update (Function.update lists new none) head (some (items ++ [new])))
  | listDel {head entry : α} {before after : List α}
      (found : lists head = some (before ++ entry :: after)) :
      Meaning lists (.listDel entry) (Function.update lists head (some (before ++ after)))
  | listDelInit {head entry : α} {before after : List α}
      (found : lists head = some (before ++ entry :: after)) :
      Meaning lists (.listDelInit entry)
        (Function.update (Function.update lists head (some (before ++ after))) entry (some []))
  | listMove {source head entry : α} {before after items : List α}
      (found : lists source = some (before ++ entry :: after))
      (target : Function.update lists source (some (before ++ after)) head = some items) :
      Meaning lists (.listMove entry head)
        (Function.update (Function.update lists source (some (before ++ after))) head
          (some (entry :: items)))
  | listMoveTail {source head entry : α} {before after items : List α}
      (found : lists source = some (before ++ entry :: after))
      (target : Function.update lists source (some (before ++ after)) head = some items) :
      Meaning lists (.listMoveTail entry head)
        (Function.update (Function.update lists source (some (before ++ after))) head
          (some (items ++ [entry])))
  | listSplice {list head first : α} {added items : List α} (other : list ≠ head)
      (foundList : lists list = some (first :: added)) (found : lists head = some items) :
      Meaning lists (.listSplice list head)
        (Function.update (Function.update lists list none) head
          (some (first :: added ++ items)))
  | listSpliceEmpty {list head : α} (foundList : lists list = some []) :
      Meaning lists (.listSplice list head) lists
  | listSpliceInit {list head : α} {added items : List α} (other : list ≠ head)
      (foundList : lists list = some added) (found : lists head = some items) :
      Meaning lists (.listSpliceInit list head)
        (Function.update (Function.update lists list (some [])) head (some (added ++ items)))

/-- What a sequence of calls is for. -/
inductive Meanings : Lists α → List (Op α) → Lists α → Prop
  | nil {lists : Lists α} : Meanings lists [] lists
  | cons {lists middle after : Lists α} {op : Op α} {ops : List (Op α)}
      (first : Meaning lists op middle) (later : Meanings middle ops after) :
      Meanings lists (op :: ops) after

end Meaning

/-! ## Pointer surgery on one list -/

namespace Represents

variable {links after : Links α} {lists : Lists α}

/-- Pointers of nodes that are in no list do not matter. -/
theorem congr (represents : Represents links lists) {touched : List α}
    (agree : AgreeOff touched links after)
    (outside : ∀ head items, lists head = some items → List.Disjoint touched (head :: items)) :
    Represents after lists :=
  ⟨fun head items found =>
      (represents.cycle head items found).of_agreeOff agree (outside head items found),
    represents.disjoint⟩

variable [DecidableEq α]

theorem of_forget {list head : α} {items : List α}
    (found : Function.update lists list none head = some items) :
    head ≠ list ∧ lists head = some items := by
  by_cases same : head = list
  · rw [same, Function.update_self] at found
    cases found
  · exact ⟨same, by rwa [Function.update_of_ne same] at found⟩

/-- A list may be forgotten. -/
theorem forget (represents : Represents links lists) (list : α) :
    Represents links (Function.update lists list none) :=
  ⟨fun head items found => represents.cycle head items (of_forget found).2,
    fun head other items others different found foundOther =>
      represents.disjoint head other items others different (of_forget found).2
        (of_forget foundOther).2⟩

/-- One circle changes, and only nodes that no other list has are touched. -/
theorem update (represents : Represents links lists) {head : α} {items touched : List α}
    (agree : AgreeOff touched links after)
    (outside : ∀ other others, other ≠ head → lists other = some others →
      List.Disjoint touched (other :: others))
    (cycle : Cycle after (head :: items)) (inside : head :: items ⊆ touched) :
    Represents after (Function.update lists head (some items)) := by
  constructor
  · intro other others found
    by_cases here : other = head
    · subst here
      rw [Function.update_self] at found
      cases found
      exact cycle
    · rw [Function.update_of_ne here] at found
      exact (represents.cycle other others found).of_agreeOff agree
        (outside other others here found)
  · have apart {other : α} {others : List α} (different : other ≠ head)
        (found : lists other = some others) : List.Disjoint (head :: items) (other :: others) :=
      fun node member => outside other others different found (inside member)
    intro first second firsts seconds different found foundSecond
    by_cases here : first = head
    · subst here
      rw [Function.update_self] at found
      rw [Function.update_of_ne (Ne.symm different)] at foundSecond
      cases found
      exact apart (Ne.symm different) foundSecond
    · rw [Function.update_of_ne here] at found
      by_cases there : second = head
      · subst there
        rw [Function.update_self] at foundSecond
        cases foundSecond
        exact fun node member inside => apart here found inside member
      · rw [Function.update_of_ne there] at foundSecond
        exact represents.disjoint first second firsts seconds different found foundSecond

/-- The circle of one list changes, and a new node may come into it. -/
theorem change {head new : α} {items nodes : List α} (represents : Represents links lists)
    (found : lists head = some items)
    (fresh : ∀ other others, lists other = some others → new ∉ other :: others)
    (agree : AgreeOff (new :: head :: items) links after) (cycle : Cycle after (head :: nodes))
    (inside : head :: nodes ⊆ new :: head :: items) :
    Represents after (Function.update lists head (some nodes)) := by
  refine represents.update agree (fun other others different there => ?_) cycle inside
  intro node member
  rcases List.mem_cons.mp member with rfl | old
  · exact fresh other others there
  · exact represents.disjoint head other items others (Ne.symm different) found there old

omit [DecidableEq α] in
/-- A node that is no entry is outside of every circle but its own. -/
theorem not_mem_of_free {node : α} (free : Free lists node) {head : α} {items : List α}
    (other : head ≠ node) (found : lists head = some items) : node ∉ head :: items := by
  rw [List.mem_cons, not_or]
  exact ⟨Ne.symm other, free head items found⟩

theorem initListHead (represents : Represents links lists) {list : α} (free : Free lists list) :
    Represents (LibList.initListHead links list) (Function.update lists list (some [])) := by
  have inside : list ∈ [list] := List.mem_singleton_self list
  have agree : AgreeOff [list] links (LibList.initListHead links list) :=
    (AgreeOff.refl [list] links).join inside inside
  refine represents.update agree ?_ (Cycle.single links list) (List.Subset.refl _)
  intro other others different found node member
  rw [List.mem_singleton.mp member]
  exact not_mem_of_free free different found

theorem listAdd (represents : Represents links lists) {head new : α} {items : List α}
    (found : lists head = some items)
    (fresh : ∀ other others, lists other = some others → new ∉ other :: others) :
    ∃ after, LibList.listAdd links new head = some after ∧
      Represents after (Function.update lists head (some (new :: items))) := by
  have cycle := represents.cycle head items found
  have newInside : new ∈ new :: head :: items := List.mem_cons_self
  have headInside : head ∈ new :: head :: items := List.mem_cons_of_mem _ List.mem_cons_self
  refine ⟨join (join links new (items.headD head)) head new, ?_, ?_⟩
  · rw [LibList.listAdd, cycle.next_head]
    rfl
  · apply represents.change found fresh _ (cycle.insert (fresh head items found))
    · exact (List.Perm.swap new head items).subset
    · exact ((AgreeOff.refl _ links).join newInside (List.mem_cons_of_mem _ headD_mem)).join
        headInside newInside

theorem listAddTail (represents : Represents links lists) {head new : α} {items : List α}
    (found : lists head = some items)
    (fresh : ∀ other others, lists other = some others → new ∉ other :: others) :
    ∃ after, LibList.listAddTail links new head = some after ∧
      Represents after (Function.update lists head (some (items ++ [new]))) := by
  have cycle := represents.cycle head items found
  have newInside : new ∈ new :: head :: items := List.mem_cons_self
  have headInside : head ∈ new :: head :: items := List.mem_cons_of_mem _ List.mem_cons_self
  refine ⟨join (join links new head) (items.getLastD head) new, ?_, ?_⟩
  · rw [LibList.listAddTail, cycle.prev_head]
    rfl
  · apply represents.change found fresh _ (cycle.insertLast (fresh head items found))
    · exact (List.perm_append_singleton new (head :: items)).subset
    · exact ((AgreeOff.refl _ links).join newInside headInside).join
        (List.mem_cons_of_mem _ getLastD_mem) newInside

/-- An entry is taken out of its circle. -/
theorem unlink (represents : Represents links lists) {head entry : α} {before behind : List α}
    (found : lists head = some (before ++ entry :: behind)) :
    ∃ after, LibList.unlink links entry = some after ∧
      Represents after (Function.update lists head (some (before ++ behind))) := by
  have cycle := represents.cycle head _ found
  have turned : Cycle links (entry :: (behind ++ head :: before)) := by
    rw [← List.cons_append] at cycle
    exact cycle.rotate
  have others : behind ++ head :: before ≠ [] := by simp
  have inside : entry :: (behind ++ head :: before) ⊆ head :: (before ++ entry :: behind) := by
    rw [← List.cons_append, ← List.cons_append]
    exact List.perm_append_comm.subset
  refine ⟨join links ((behind ++ head :: before).getLastD entry)
    ((behind ++ head :: before).headD entry), ?_, ?_⟩
  · simp only [LibList.unlink, turned.prev_head, turned.next_head]
    rfl
  · have removed := (turned.remove others).rotate
    have agree : AgreeOff (head :: (before ++ entry :: behind)) links
        (join links ((behind ++ head :: before).getLastD entry)
          ((behind ++ head :: before).headD entry)) :=
      (AgreeOff.refl _ links).join (inside getLastD_mem) (inside headD_mem)
    refine represents.update agree (fun other rest different there => ?_) removed ?_
    · exact represents.disjoint head other _ rest (Ne.symm different) found there
    · intro node member
      simp only [List.mem_cons, List.mem_append] at member ⊢
      tauto

/-- The entry is in no list any more. -/
theorem not_mem_unlinked (represents : Represents links lists) {head entry : α}
    {before behind : List α} (found : lists head = some (before ++ entry :: behind)) {other : α}
    {others : List α}
    (there : Function.update lists head (some (before ++ behind)) other = some others) :
    entry ∉ other :: others := by
  have nodup := (represents.cycle head _ found).nodup
  by_cases same : other = head
  · subst same
    rw [Function.update_self] at there
    cases there
    have middle : (entry :: (other :: before ++ behind)).Nodup :=
      List.perm_middle.nodup_iff.mp (by rwa [List.cons_append])
    simpa using (List.nodup_cons.mp middle).1
  · rw [Function.update_of_ne same] at there
    have apart := represents.disjoint head other _ others (Ne.symm same) found there
    exact apart (by simp)

/-- The entries of one list are put in front of those of another. -/
theorem splice (represents : Represents links lists) {list head first : α}
    {added items : List α} (other : list ≠ head) (foundList : lists list = some (first :: added))
    (found : lists head = some items) :
    ∃ after, listSpliceBetween links list head = some after ∧
      Represents after (Function.update (Function.update lists list none) head
        (some (first :: added ++ items))) := by
  have cycle := represents.cycle head items found
  have cycleList := represents.cycle list _ foundList
  have apart := represents.disjoint head list items _ (Ne.symm other) found foundList
  have disjoint : List.Disjoint (head :: items) (first :: added) :=
    fun node member inside => apart member (List.mem_cons_of_mem _ inside)
  have agree : AgreeOff (head :: items ++ first :: added) links
      (join (join links head first) (added.getLastD first) (items.headD head)) := by
    refine ((AgreeOff.refl _ links).join ?_ ?_).join ?_ ?_
    · exact List.mem_append_left _ List.mem_cons_self
    · exact List.mem_append_right _ List.mem_cons_self
    · exact List.mem_append_right _ getLastD_mem
    · exact List.mem_append_left _ headD_mem
  refine ⟨join (join links head first) (added.getLastD first) (items.headD head), ?_, ?_⟩
  · have last : links.prev list = some (added.getLastD first) := by
      rw [cycleList.prev_head]
      cases added <;> rfl
    simp only [listSpliceBetween, cycleList.next_head, last, cycle.next_head]
    rfl
  · refine (represents.forget list).update agree ?_ (cycle.splice cycleList disjoint) ?_
    · intro node others different there entry inside member
      obtain ⟨notList, there⟩ := of_forget there
      rcases List.mem_append.mp inside with old | new
      · exact represents.disjoint head node items others (Ne.symm different) found there old member
      · exact represents.disjoint list node _ others (Ne.symm notList) foundList there
          (List.mem_cons_of_mem _ new) member
    · intro node member
      simp only [List.mem_cons, List.mem_append, List.cons_append] at member ⊢
      tauto

/-- The head of the list that was emptied is in no list any more. -/
theorem not_mem_spliced (represents : Represents links lists) {list head : α}
    {added items : List α} (other : list ≠ head) (foundList : lists list = some added)
    (found : lists head = some items) {node : α} {others : List α}
    (there : Function.update (Function.update lists list none) head (some (added ++ items)) node =
      some others) : list ∉ node :: others := by
  have notAdded := (List.nodup_cons.mp (represents.cycle list added foundList).nodup).1
  have apart : list ∉ head :: items :=
    represents.disjoint list head added items other foundList found List.mem_cons_self
  by_cases same : node = head
  · subst same
    rw [Function.update_self] at there
    cases there
    rw [List.mem_cons, not_or] at apart
    simp only [List.mem_cons, List.mem_append, not_or]
    exact ⟨apart.1, notAdded, apart.2⟩
  · rw [Function.update_of_ne same] at there
    obtain ⟨notList, there⟩ := of_forget there
    exact represents.disjoint list node added others (Ne.symm notList) foundList there
      List.mem_cons_self

theorem listEmpty_iff (represents : Represents links lists) {head : α} {items : List α}
    (found : lists head = some items) : listEmpty links head = true ↔ items = [] := by
  have cycle := represents.cycle head items found
  rw [listEmpty, cycle.next_head, decide_eq_true_iff, Option.some.injEq]
  cases items with
  | nil => simp
  | cons first items =>
      have nodup := cycle.nodup
      simp only [List.nodup_cons, List.mem_cons, not_or] at nodup
      simpa using Ne.symm nodup.1.1

end Represents

section Free

variable [DecidableEq α] {lists : Lists α} {node head list : α} {items : List α}

theorem Free.update (free : Free lists node) (absent : node ∉ items) :
    Free (Function.update lists head (some items)) node := by
  intro other others found
  by_cases same : other = head
  · subst same
    rw [Function.update_self] at found
    cases found
    exact absent
  · rw [Function.update_of_ne same] at found
    exact free other others found

theorem Free.forget (free : Free lists node) : Free (Function.update lists list none) node :=
  fun other others found => free other others (Represents.of_forget found).2

end Free

/-! ## Every function does what it means -/

section Runs

variable [DecidableEq α] {links : Links α} {lists after : Lists α} {op : Op α}

theorem Represents.run (represents : Represents links lists) (meaning : Meaning lists op after) :
    ∃ moved, op.run links = some moved ∧ Represents moved after := by
  cases meaning with
  | initListHead free => exact ⟨_, rfl, represents.initListHead free⟩
  | @listAdd new head items free other found =>
      have forgotten := represents.forget new
      have still : Function.update lists new none head = some items := by
        rwa [Function.update_of_ne (Ne.symm other)]
      refine forgotten.listAdd still fun node others there => ?_
      obtain ⟨different, there⟩ := Represents.of_forget there
      exact Represents.not_mem_of_free free different there
  | @listAddTail new head items free other found =>
      have forgotten := represents.forget new
      have still : Function.update lists new none head = some items := by
        rwa [Function.update_of_ne (Ne.symm other)]
      refine forgotten.listAddTail still fun node others there => ?_
      obtain ⟨different, there⟩ := Represents.of_forget there
      exact Represents.not_mem_of_free free different there
  | @listDel head entry before behind found =>
      obtain ⟨moved, unlinked, middle⟩ := represents.unlink found
      have agree : AgreeOff [entry] moved (setPrev (setNext moved entry none) entry none) := by
        intro node outside
        have other : node ≠ entry := List.ne_of_not_mem_cons outside
        exact ⟨Function.update_of_ne other .., Function.update_of_ne other ..⟩
      refine ⟨_, by rw [Op.run, LibList.listDel, unlinked]; rfl, middle.congr agree ?_⟩
      intro other others there node inside
      rw [List.mem_singleton.mp inside]
      exact represents.not_mem_unlinked found there
  | @listDelInit head entry before behind found =>
      obtain ⟨moved, unlinked, middle⟩ := represents.unlink found
      refine ⟨_, by rw [Op.run, LibList.listDelInit, unlinked]; rfl, middle.initListHead ?_⟩
      intro other others there inside
      exact represents.not_mem_unlinked found there (List.mem_cons_of_mem _ inside)
  | @listMove source head entry before behind items found target =>
      obtain ⟨moved, unlinked, middle⟩ := represents.unlink found
      obtain ⟨final, added, result⟩ := middle.listAdd target fun node others there =>
        represents.not_mem_unlinked found there
      exact ⟨final, by simp [Op.run, LibList.listMove, unlinked, added], result⟩
  | @listMoveTail source head entry before behind items found target =>
      obtain ⟨moved, unlinked, middle⟩ := represents.unlink found
      obtain ⟨final, added, result⟩ := middle.listAddTail target fun node others there =>
        represents.not_mem_unlinked found there
      exact ⟨final, by simp [Op.run, LibList.listMoveTail, unlinked, added], result⟩
  | @listSplice list head first added items other foundList found =>
      have nonempty : ¬ listEmpty links list = true := by simp [represents.listEmpty_iff foundList]
      obtain ⟨moved, spliced, result⟩ := represents.splice other foundList found
      exact ⟨moved, by rw [Op.run, LibList.listSplice, if_neg nonempty, spliced], result⟩
  | @listSpliceEmpty list head foundList =>
      have empty : listEmpty links list = true := by simp [represents.listEmpty_iff foundList]
      exact ⟨links, by rw [Op.run, LibList.listSplice, if_pos empty], represents⟩
  | @listSpliceInit list head added items other foundList found =>
      cases added with
      | nil =>
          have empty : listEmpty links list = true := by simp [represents.listEmpty_iff foundList]
          refine ⟨links, by rw [Op.run, LibList.listSpliceInit, if_pos empty], ?_⟩
          rwa [List.nil_append, ← foundList, Function.update_eq_self, ← found,
            Function.update_eq_self]
      | cons first added =>
          have nonempty : ¬ listEmpty links list = true := by
            simp [represents.listEmpty_iff foundList]
          obtain ⟨moved, spliced, middle⟩ := represents.splice other foundList found
          have result := middle.initListHead fun node others there inside =>
            represents.not_mem_spliced other foundList found there (List.mem_cons_of_mem _ inside)
          rw [Function.update_comm (Ne.symm other), Function.update_idem] at result
          refine ⟨_, ?_, result⟩
          rw [Op.run, LibList.listSpliceInit, if_neg nonempty, spliced]
          rfl

theorem Represents.runs {ops : List (Op α)} (represents : Represents links lists)
    (meanings : Meanings lists ops after) :
    ∃ moved, ops.foldlM Op.run links = some moved ∧ Represents moved after := by
  induction meanings generalizing links with
  | nil => exact ⟨links, rfl, represents⟩
  | cons first later ih =>
      obtain ⟨middle, moved, between⟩ := represents.run first
      obtain ⟨final, rest, result⟩ := ih between
      exact ⟨final, by rw [List.foldlM_cons, moved]; exact rest, result⟩

omit [DecidableEq α] in
/-- Nothing is in a list before the first one is initialised. -/
theorem represents_none (links : Links α) : Represents links fun _ => none :=
  ⟨nofun, nofun⟩

/-! ## Loops over a list -/

theorem listForEachFrom_of_segment {pos head : α} {nodes : List α} {fuel : Nat}
    (segment : Segment links pos nodes head) (outside : head ∉ pos :: nodes)
    (enough : nodes.length + 1 < fuel) :
    listForEachFrom links head fuel (some pos) = some (pos :: nodes) := by
  induction nodes generalizing pos fuel with
  | nil =>
      obtain ⟨fuel, rfl⟩ : ∃ less, fuel = less + 2 := ⟨fuel - 2, by simp at enough; omega⟩
      have other : pos ≠ head := by
        rintro rfl
        exact outside List.mem_cons_self
      rw [listForEachFrom, if_neg other, segment.1, listForEachFrom, if_pos rfl]
      rfl
  | cons node nodes ih =>
      rw [List.length_cons] at enough
      obtain ⟨fuel, rfl⟩ : ∃ less, fuel = less + 1 := ⟨fuel - 1, by omega⟩
      have other : pos ≠ head := by
        rintro rfl
        exact outside List.mem_cons_self
      rw [listForEachFrom, if_neg other, segment.1.1,
        ih segment.2 (fun inside => outside (List.mem_cons_of_mem _ inside)) (by omega)]
      rfl

theorem listForEach_of_cycle {head : α} {items : List α} {fuel : Nat}
    (cycle : Cycle links (head :: items)) (enough : items.length < fuel) :
    listForEach links fuel head = some items := by
  rw [listForEach, cycle.next_head]
  cases items with
  | nil =>
      obtain ⟨fuel, rfl⟩ : ∃ less, fuel = less + 1 := ⟨fuel - 1, by simp at enough; omega⟩
      simp [listForEachFrom]
  | cons first items =>
      exact listForEachFrom_of_segment cycle.1.2 (List.nodup_cons.mp cycle.2).1 enough

theorem listForEachPrev_of_cycle {head : α} {items : List α} {fuel : Nat}
    (cycle : Cycle links (head :: items)) (enough : items.length < fuel) :
    listForEachPrev links fuel head = some items.reverse :=
  listForEach_of_cycle cycle.reverse (by simpa using enough)

/-- Two entries in one list, of which the last is moved to another list and comes back
with this list. -/
def sampleOps : List (Op Nat) :=
  [.initListHead 0, .initListHead 10, .listAddTail 1 0, .listAddTail 11 0, .listMove 11 10,
    .listSpliceInit 10 0]

theorem sampleOps_mean : ∃ lists, Meanings (fun _ => none) sampleOps lists ∧
    lists 0 = some [11, 1] ∧ lists 10 = some [] := by
  have free (node : Nat) : Free (fun _ => none) node := nofun
  have opened (node : Nat) : Free (Function.update (Function.update (fun _ => none) 0 (some []))
      10 (some [])) node := ((free node).update (by simp)).update (by simp)
  exact ⟨_, .cons (.initListHead (free 0)) <| .cons (.initListHead ((free 10).update (by simp))) <|
    .cons (.listAddTail (opened 1) (by decide) rfl) <|
    .cons (.listAddTail ((opened 11).forget.update (by decide)) (by decide) rfl) <|
    .cons (@Meaning.listMove Nat _ _ 0 10 11 [1] [] [] rfl rfl) <|
    .cons (.listSpliceInit (by decide) rfl rfl) .nil, rfl, rfl⟩

/-- Whatever is done with any number of lists in any memory, each of them is the list that
its calls mean, told forwards and backwards, and is empty when this list is. -/
theorem runs_behave {ops : List (Op α)} (meanings : Meanings (fun _ => none) ops lists)
    (links : Links α) :
    ∃ moved, ops.foldlM Op.run links = some moved ∧
      ∀ head items, lists head = some items →
        (listEmpty moved head = true ↔ items = []) ∧
        ∀ fuel, items.length < fuel →
          listForEach moved fuel head = some items ∧
          listForEachPrev moved fuel head = some items.reverse := by
  obtain ⟨moved, run, represents⟩ := (represents_none links).runs meanings
  refine ⟨moved, run, fun head items found => ⟨represents.listEmpty_iff found, ?_⟩⟩
  intro fuel enough
  have cycle := represents.cycle head items found
  exact ⟨listForEach_of_cycle cycle enough, listForEachPrev_of_cycle cycle enough⟩

theorem runs_behave_sample : ∃ moved, sampleOps.foldlM Op.run
      (⟨fun _ => none, fun _ => none⟩ : Links Nat) = some moved ∧
    listForEach moved 3 0 = some [11, 1] ∧ listForEachPrev moved 3 0 = some [1, 11] ∧
    listEmpty moved 10 = true := by
  obtain ⟨lists, meanings, first, second⟩ := sampleOps_mean
  obtain ⟨moved, run, behaves⟩ := runs_behave meanings ⟨fun _ => none, fun _ => none⟩
  have loops := (behaves 0 _ first).2 3 (by decide)
  exact ⟨moved, run, loops.1, loops.2, (behaves 10 _ second).1.mpr rfl⟩

omit [DecidableEq α] in
/-- Where the loop stands, and where it goes next. -/
theorem Represents.exists_next {head : α} {kept rest : List α}
    (represents : Represents links lists) (found : lists head = some (kept ++ rest)) :
    ∃ following, links.next (rest.headD head) = some following ∧
      (rest ≠ [] → following = rest.tail.headD head) := by
  have cycle := represents.cycle head _ found
  cases rest with
  | nil => exact ⟨_, cycle.next_head, fun nonempty => absurd rfl nonempty⟩
  | cons pos rest => exact ⟨_, cycle.next_eq, fun _ => rfl⟩

theorem Represents.listForEachSafeFrom {chosen : α → Bool} {head n : α} {kept rest : List α}
    {fuel : Nat} (represents : Represents links lists)
    (found : lists head = some (kept ++ rest)) (enough : rest.length < fuel)
    (ahead : rest ≠ [] → n = rest.tail.headD head) :
    ∃ moved, LibList.listForEachSafeFrom chosen head fuel links (rest.headD head) n = some moved ∧
      Represents moved
        (Function.update lists head (some (kept ++ rest.filter fun node => !chosen node))) := by
  induction rest generalizing links lists kept n fuel with
  | nil =>
      obtain ⟨fuel, rfl⟩ : ∃ less, fuel = less + 1 := ⟨fuel - 1, by simp at enough; omega⟩
      refine ⟨links, by simp [LibList.listForEachSafeFrom], ?_⟩
      rwa [List.filter_nil, ← found, Function.update_eq_self]
  | cons pos rest ih =>
      rw [List.length_cons] at enough
      obtain ⟨fuel, rfl⟩ : ∃ less, fuel = less + 1 := ⟨fuel - 1, by omega⟩
      have fewer : rest.length < fuel := Nat.lt_of_succ_lt_succ enough
      obtain rfl := ahead (List.cons_ne_nil _ _)
      have cycle := represents.cycle head _ found
      have other : pos ≠ head := by
        rintro rfl
        exact (List.nodup_cons.mp cycle.2).1 (by simp)
      rw [List.headD_cons, List.tail_cons, LibList.listForEachSafeFrom, if_neg other]
      by_cases chosenHere : chosen pos
      · obtain ⟨middle, deleted, between⟩ := represents.run (.listDel found)
        have foundAfter : Function.update lists head (some (kept ++ rest)) head =
            some (kept ++ rest) := Function.update_self ..
        obtain ⟨following, next, place⟩ := between.exists_next foundAfter
        obtain ⟨moved, looped, result⟩ := ih between foundAfter fewer place
        refine ⟨moved, ?_, ?_⟩
        · have step : LibList.listDel links pos = some middle := deleted
          simp only [chosenHere, if_true, step, Option.bind_eq_bind, Option.bind_some, next, looped]
        · rw [Function.update_idem] at result
          simpa [List.filter_cons, chosenHere] using result
      · have foundAfter : lists head = some ((kept ++ [pos]) ++ rest) := by
          rw [found, List.append_assoc, List.singleton_append]
        obtain ⟨following, next, place⟩ := represents.exists_next foundAfter
        obtain ⟨moved, looped, result⟩ := ih represents foundAfter fewer place
        refine ⟨moved, ?_, ?_⟩
        · simp only [chosenHere, Bool.false_eq_true, if_false, Option.bind_eq_bind,
            Option.bind_some, next, looped]
        · simpa [List.filter_cons, chosenHere] using result

/-- After any calls, a loop with `list_for_each_safe` may delete whichever entries it
likes: the others stay in their order, and no other list changes. -/
theorem safe_loop_filters {ops : List (Op α)} (meanings : Meanings (fun _ => none) ops lists)
    (links : Links α) (chosen : α → Bool) {head : α} {items : List α}
    (found : lists head = some items) {fuel : Nat} (enough : items.length < fuel) :
    ∃ moved final, ops.foldlM Op.run links = some moved ∧
      listForEachSafe chosen moved fuel head = some final ∧
      listForEach final fuel head = some (items.filter fun node => !chosen node) ∧
      ∀ other others, other ≠ head → lists other = some others → ∀ steps, others.length < steps →
        listForEach final steps other = some others := by
  obtain ⟨moved, run, represents⟩ := (represents_none links).runs meanings
  have start : lists head = some ([] ++ items) := found
  obtain ⟨n, next, place⟩ := represents.exists_next start
  obtain ⟨final, looped, result⟩ : ∃ final, LibList.listForEachSafeFrom chosen head fuel moved
      (items.headD head) n = some final ∧ Represents final _ :=
    represents.listForEachSafeFrom start enough place
  refine ⟨moved, final, run, ?_, ?_, ?_⟩
  · simp only [listForEachSafe, (represents.cycle head items found).next_head,
      Option.bind_eq_bind, Option.bind_some, next, looped]
  · have cycle := result.cycle head _ (Function.update_self ..)
    exact listForEach_of_cycle cycle (Nat.lt_of_le_of_lt (List.length_filter_le _ items) enough)
  · intro other others different there steps room
    have still : Function.update lists head (some ([] ++ items.filter fun node => !chosen node))
        other = some others := by rwa [Function.update_of_ne different]
    exact listForEach_of_cycle (result.cycle other others still) room

theorem safe_loop_filters_sample : ∃ moved final, sampleOps.foldlM Op.run
      (⟨fun _ => none, fun _ => none⟩ : Links Nat) = some moved ∧
    listForEachSafe (· = 11) moved 3 0 = some final ∧ listForEach final 3 0 = some [1] := by
  obtain ⟨lists, meanings, first, -⟩ := sampleOps_mean
  obtain ⟨moved, final, run, filtered, rest, -⟩ :=
    safe_loop_filters meanings ⟨fun _ => none, fun _ => none⟩ (· = 11) first
      (show [11, 1].length < 3 by decide)
  exact ⟨moved, final, run, filtered, rest⟩

end Runs

end FrameCode.LibList
