import FrameCode.Occurrences
import FrameCode.StringBlocks

/-!
# Elements in `lib_xml.c`

`Get_ChildString` looks for an opening tag that begins with the name, and copies what stands
between its first character and the closing tag: the rest of the opening tag and the text behind
it, without a terminator.
-/

namespace FrameCode.LibXml

open CText CheckedCopy StringBlocks Occurrences

/-! ## The functions -/

/-- `Find_ZdXml`: whether the tag was found, and the block of the name, which then has the tag. -/
def findZdXml (str fndStr : List UInt8) : Option (Bool × List UInt8) := do
  let name ← string fndStr 0
  let p1 ← [[60], name].foldlM strcat (cleared (name.length + 1 + 1))
  let p1 ← string p1 0
  match find p1 str with
  | none => some (false, fndStr)
  | some p =>
      match find [62] (str.drop (p + p1.length)) with
      | none => some (false, fndStr)
      | some place => do
          let fndStr ← strncpy fndStr 0 (str.drop p) (p1.length + place + 1)
          some (true, fndStr)

/-- `Get_FindString`: whether both strings were found, and the block with what is between them.  A
length that is negative is taken as a very large one. -/
def getFindString (srcStr fndStr str1 str2 : List UInt8) : Option (Bool × List UInt8) :=
  match find str1 srcStr with
  | none => some (false, fndStr)
  | some pTmpFirst =>
      match find str2 (srcStr.drop pTmpFirst) with
      | none => some (false, fndStr)
      | some 0 => none
      | some (count + 1) => do
          let fndStr ← strncpy fndStr 0 (srcStr.drop (pTmpFirst + 1)) count
          some (true, fndStr)

/-- `Get_ChildString`: whether it returns the buffer and not `NULL`, and the buffer. -/
def getChildString (str fndStr : List UInt8) : Option (Bool × List UInt8) := do
  let name ← string fndStr 0
  let pTmp ← strcat (cleared (str.length + 1)) name
  let (found, pTmp) ← findZdXml str pTmp
  if found then do
    let pTmp2 ← [[60, 47], name, [62]].foldlM strcat (cleared (str.length + 1))
    let str1 ← string pTmp 0
    let str2 ← string pTmp2 0
    getFindString str fndStr str1 str2
  else some (false, fndStr)

/-! ## Elements -/

/-- A tag name. -/
structure Name (t : List UInt8) : Prop where
  nonempty : t ≠ []
  clean : 0 ∉ t
  noOpening : 60 ∉ t
  noClosing : 62 ∉ t
  noSlash : 47 ∉ t
  noSpace : 32 ∉ t

/-- The length of the opening tag with which a string begins: `<`, the name and `>`, or a space
and attributes before the `>`. -/
def openingLength (t s : List UInt8) : Option Nat :=
  if 60 :: t <+: s then
    match s.drop (t.length + 1) with
    | 62 :: _ => some (t.length + 2)
    | 32 :: rest => (find [62] rest).map (t.length + 3 + ·)
    | _ => none
  else none

def closingTag (t : List UInt8) : List UInt8 := [60, 47] ++ t ++ [62]

/-- The text between the first opening tag and the next closing tag. -/
def childString (t : List UInt8) : List UInt8 → Option (List UInt8)
  | [] => none
  | byte :: rest =>
      match openingLength t (byte :: rest) with
      | some length =>
          (find (closingTag t) ((byte :: rest).drop length)).map fun count =>
            ((byte :: rest).drop length).take count
      | none => childString t rest

/-- In every buffer that has the name, and whatever else, all copies stay within their blocks, and
the text of the element is delivered, or `NULL` when there is none. -/
def Extracts (str t : List UInt8) : Prop :=
  ∀ fndStr, Holds fndStr t → str.length + 1 ≤ fndStr.length →
    ∃ returned after, getChildString str fndStr = some (returned, after) ∧
      match childString t str with
      | none => returned = false
      | some body => returned = true ∧ Holds after body

/-- The name fits into the block for it.  Where a string that begins like an opening tag has a `>`
behind it, the closing tag fits too, and there is none in the document, or it follows the name at
once and the text of the element happens to be its name. -/
def Manageable (str t : List UInt8) : Prop :=
  t.length ≤ str.length ∧
    ∀ p, find (60 :: t) str = some p → 62 ∈ str.drop (p + (t.length + 1)) →
      t.length + 3 ≤ str.length ∧
        ∀ count, find (closingTag t) (str.drop p) = some count →
          count = t.length + 1 ∧ childString t str = some t

section Spec

variable {t s : List UInt8}

theorem openingLength_some {length : Nat} (opens : openingLength t s = some length) :
    60 :: t <+: s ∧ 62 ∈ s.drop (t.length + 1) := by
  unfold openingLength at opens
  split at opens
  · rename_i begins
    refine ⟨begins, ?_⟩
    split at opens
    · rename_i tail
      rw [tail]
      exact List.mem_cons_self
    · rename_i rest tail
      rw [tail]
      obtain ⟨place, found, -⟩ := Option.map_eq_some_iff.mp opens
      have occurs := (find_eq_some_iff.mp found).1
      have member : 62 ∈ rest.drop place := occurs.subset List.mem_cons_self
      exact List.mem_cons_of_mem _ (List.mem_of_mem_drop member)
    · cases opens
  · cases opens

/-- An element begins like an opening tag with a `>` behind it, and has a closing tag. -/
theorem childString_some {body : List UInt8} (found : childString t s = some body) :
    ∃ place behind, place ≤ behind ∧ 60 :: t <+: s.drop place ∧
      62 ∈ s.drop (place + (t.length + 1)) ∧ closingTag t <+: s.drop behind := by
  induction s with
  | nil => cases found
  | cons byte rest ih =>
      rw [childString] at found
      split at found
      · rename_i length opens
        obtain ⟨begins, closes⟩ := openingLength_some opens
        obtain ⟨count, closing, -⟩ := Option.map_eq_some_iff.mp found
        have occurs := (find_eq_some_iff.mp closing).1
        rw [List.drop_drop] at occurs
        exact ⟨0, length + count, Nat.zero_le _, begins, by rwa [Nat.zero_add], occurs⟩
      · obtain ⟨place, behind, le, begins, closes, occurs⟩ := ih found
        refine ⟨place + 1, behind + 1, Nat.succ_le_succ le, begins, ?_, occurs⟩
        rw [Nat.add_right_comm]
        exact closes

/-- The closing tag is behind the name. -/
theorem length_lt_of_closing (name : Name t) (begins : 60 :: t <+: s) {count : Nat}
    (closing : closingTag t <+: s.drop count) : t.length + 1 ≤ count := by
  obtain ⟨rest, rfl⟩ := begins
  by_contra within
  cases count with
  | zero =>
      obtain ⟨byte, others, rfl⟩ := List.exists_cons_of_ne_nil name.nonempty
      obtain ⟨more, same⟩ := closing
      rw [closingTag, List.drop_zero] at same
      have slash : 47 = byte := (List.cons.inj (List.cons.inj same).2).1
      exact name.noSlash (slash ▸ List.mem_cons_self)
  | succ count =>
      have inside : count < t.length := by omega
      rw [List.cons_append, List.drop_succ_cons, List.drop_append_of_le_length inside.le,
        List.drop_eq_getElem_cons inside] at closing
      obtain ⟨more, same⟩ := closing
      have opening : 60 = t[count] := (List.cons.inj same).1
      exact name.noOpening (opening ▸ List.getElem_mem inside)

end Spec

/-! ## What the functions do -/

section Calls

variable {str t fndStr : List UInt8} {p place : Nat}

/-- The tag is the string from `<` to the first `>` behind the name. -/
def tagLength (t : List UInt8) (place : Nat) : Nat := t.length + 1 + place + 1

theorem clean_tag (name : Name t) : 0 ∉ 60 :: t := by
  simp [name.clean]

theorem openTag_eq (name : Name t) :
    (do
      let p1 ← [[60], t].foldlM strcat (cleared (t.length + 1 + 1))
      string p1 0) = some (60 :: t) := by
  have joined : [[60], t].flatten = 60 :: t := by simp
  have appended := @foldlM_strcat [] (t.length + 1 + 1) List.not_mem_nil (Nat.succ_pos _) [[60], t]
    (by simp [name.clean])
  rw [joined, List.length_cons, if_pos (Nat.lt_succ_self _), List.nil_append, List.nil_append]
    at appended
  rw [appended, Option.bind_eq_bind, Option.bind_some,
    string_append_cleared (clean_tag name) (by omega)]

/-- The closing tag needs a block of its size and a terminator. -/
theorem closeTag_eq (name : Name t) (size : Nat) :
    (do
      let pTmp2 ← [[60, 47], t, [62]].foldlM strcat (cleared (size + 1))
      string pTmp2 0) = if t.length + 3 ≤ size then some (closingTag t) else none := by
  have joined : [[60, 47], t, [62]].flatten = closingTag t := by simp [closingTag]
  have length : (closingTag t).length = t.length + 3 := by
    simp [closingTag]
  have clean : 0 ∉ closingTag t := by simp [closingTag, name.clean]
  have appended := @foldlM_strcat [] (size + 1) List.not_mem_nil (Nat.succ_pos _)
    [[60, 47], t, [62]] (by simp [name.clean])
  rw [joined, length, List.nil_append, List.nil_append] at appended
  rw [appended]
  by_cases fits : t.length + 3 ≤ size
  · rw [if_pos (Nat.lt_succ_of_le fits), if_pos fits, Option.bind_eq_bind, Option.bind_some,
      string_append_cleared clean (by omega)]
  · rw [if_neg (by omega), if_neg fits]
    rfl

/-- The tag is copied over the name. -/
theorem findZdXml_eq (name : Name t) {spare : Nat} (room : 0 < spare) :
    findZdXml str (t ++ cleared spare) =
      match find (60 :: t) str with
      | none => some (false, t ++ cleared spare)
      | some p =>
          match find [62] (str.drop (p + (t.length + 1))) with
          | none => some (false, t ++ cleared spare)
          | some place =>
              (strncpy (t ++ cleared spare) 0 (str.drop p) (tagLength t place)).map (true, ·) := by
  have opened := openTag_eq name
  simp only [Option.bind_eq_bind] at opened
  rw [findZdXml, string_append_cleared name.clean room]
  simp only [Option.bind_eq_bind, Option.bind_some]
  rw [← Option.bind_assoc, opened, Option.bind_some, List.length_cons]
  split
  · rfl
  · split
    · rfl
    · rw [tagLength, Option.map_eq_bind]
      rfl

/-- A `>` behind the name ends within the document. -/
theorem tagLength_le (found : find (60 :: t) str = some p)
    (closed : find [62] (str.drop (p + (t.length + 1))) = some place) :
    p + tagLength t place ≤ str.length := by
  have within := length_le_of_find closed (by simp)
  have begins := length_le_of_find found (by simp)
  rw [List.length_drop, List.length_singleton] at within
  rw [List.length_cons] at begins
  rw [tagLength]
  omega

/-- The tag that was found, in front of NUL bytes. -/
theorem findZdXml_tag (name : Name t) (short : t.length ≤ str.length)
    (found : find (60 :: t) str = some p)
    (closed : find [62] (str.drop (p + (t.length + 1))) = some place) :
    findZdXml str (t ++ cleared (str.length + 1 - t.length)) =
      some (true, (str.drop p).take (tagLength t place) ++
        cleared (str.length + 1 - tagLength t place)) := by
  have within := tagLength_le found closed
  have longer : t.length ≤ tagLength t place := by
    rw [tagLength]
    omega
  have rest : (t ++ cleared (str.length + 1 - t.length)).drop (tagLength t place) =
      cleared (str.length + 1 - tagLength t place) := by
    rw [List.drop_append, List.drop_of_length_le longer, List.nil_append, cleared,
      List.drop_replicate, cleared]
    congr 1
    omega
  rw [findZdXml_eq name (by omega), found]
  simp only [closed]
  rw [strncpy_eq (by rw [List.length_drop]; omega) (by simp [cleared]; omega), rest]
  rfl

/-- The tag is met for the first time where the name is. -/
theorem find_tag (found : find (60 :: t) str = some p) (place : Nat) :
    find ((str.drop p).take (tagLength t place)) str = some p := by
  rw [find_eq_some_iff]
  refine ⟨List.take_prefix _ _, fun earlier less occurs => ?_⟩
  have begins : 60 :: t <+: (str.drop p).take (tagLength t place) := by
    apply List.prefix_take_iff.mpr
    refine ⟨(find_eq_some_iff.mp found).1, ?_⟩
    rw [List.length_cons, tagLength]
    omega
  exact (find_eq_some_iff.mp found).2 earlier less (begins.trans occurs)

theorem clean_of_take (clean : 0 ∉ str) : 0 ∉ (str.drop p).take place := fun member =>
  clean (List.mem_of_mem_drop (List.mem_of_mem_take member))

theorem strcat_name (short : t.length ≤ str.length) :
    strcat (cleared (str.length + 1)) t = some (t ++ cleared (str.length + 1 - t.length)) := by
  have appended := @strcat_append_cleared t [] (str.length + 1) List.not_mem_nil (Nat.succ_pos _)
  rwa [List.nil_append, List.nil_append, if_pos (Nat.lt_succ_of_le short)] at appended

/-- A name that is longer than the document does not fit into the block for it. -/
theorem getChildString_long (holds : Holds fndStr t) (long : str.length < t.length) :
    getChildString str fndStr = none := by
  have appended := @strcat_append_cleared t [] (str.length + 1) List.not_mem_nil (Nat.succ_pos _)
  rw [List.nil_append, List.nil_append, if_neg (by omega)] at appended
  rw [getChildString, holds_iff.mp holds, Option.bind_eq_bind, Option.bind_some, appended]
  rfl

theorem getChildString_missing (holds : Holds fndStr t)
    (short : t.length ≤ str.length)
    (missing : findZdXml str (t ++ cleared (str.length + 1 - t.length)) =
      some (false, t ++ cleared (str.length + 1 - t.length))) :
    getChildString str fndStr = some (false, fndStr) := by
  simp only [getChildString, holds_iff.mp holds, strcat_name short, missing,
    Option.bind_eq_bind, Option.bind_some, Bool.false_eq_true, if_false]

theorem getChildString_tag (name : Name t) (clean : 0 ∉ str) (holds : Holds fndStr t)
    (short : t.length ≤ str.length) (found : find (60 :: t) str = some p)
    (closed : find [62] (str.drop (p + (t.length + 1))) = some place) :
    getChildString str fndStr =
      if t.length + 3 ≤ str.length then
        getFindString str fndStr ((str.drop p).take (tagLength t place)) (closingTag t)
      else none := by
  have within := tagLength_le found closed
  have closes := closeTag_eq name str.length
  have read : string ((str.drop p).take (tagLength t place) ++
      cleared (str.length + 1 - tagLength t place)) 0 =
      some ((str.drop p).take (tagLength t place)) :=
    string_append_cleared (clean_of_take clean) (by omega)
  simp only [Option.bind_eq_bind] at closes
  simp only [getChildString, holds_iff.mp holds, strcat_name short,
    findZdXml_tag name short found closed, Option.bind_eq_bind, Option.bind_some, if_true, read]
  rw [← Option.bind_assoc, closes]
  by_cases fits : t.length + 3 ≤ str.length
  · rw [if_pos fits, if_pos fits, Option.bind_some]
  · rw [if_neg fits, if_neg fits, Option.bind_none]

/-- The rest of the tag and the text behind it are copied, without a terminator. -/
theorem getFindString_closing (name : Name t) (room : str.length ≤ fndStr.length)
    (found : find (60 :: t) str = some p) (place : Nat) {count : Nat}
    (closing : find (closingTag t) (str.drop p) = some count) :
    getFindString str fndStr ((str.drop p).take (tagLength t place)) (closingTag t) =
      some (true, (str.drop (p + 1)).take (count - 1) ++ fndStr.drop (count - 1)) := by
  have behind := length_lt_of_closing name (find_eq_some_iff.mp found).1
    (find_eq_some_iff.mp closing).1
  have within := length_le_of_find closing (by simp [closingTag])
  rw [List.length_drop] at within
  obtain ⟨count, rfl⟩ := Nat.exists_eq_succ_of_ne_zero (show count ≠ 0 by omega)
  have copied := @strncpy_eq fndStr (str.drop (p + 1)) count (by rw [List.length_drop]; omega)
    (by omega)
  simp only [getFindString, find_tag found, closing, copied, Option.bind_eq_bind,
    Option.bind_some, Nat.succ_eq_add_one, Nat.add_sub_cancel]

end Calls

/-! ## When the text is delivered -/

section Extraction

variable {str t : List UInt8} {p : Nat}

/-- A document without such a tag has no element. -/
theorem childString_eq_none_of_missing (missing : find (60 :: t) str = none) :
    childString t str = none := by
  by_contra present
  obtain ⟨body, found⟩ := Option.ne_none_iff_exists'.mp present
  obtain ⟨place, -, -, begins, -⟩ := childString_some found
  exact find_eq_none_iff.mp missing place begins

/-- An element begins at the first such tag or behind it. -/
theorem childString_eq_none_of_found (found : find (60 :: t) str = some p)
    (lacks : 62 ∉ str.drop (p + (t.length + 1)) ∨ find (closingTag t) (str.drop p) = none) :
    childString t str = none := by
  by_contra present
  obtain ⟨body, element⟩ := Option.ne_none_iff_exists'.mp present
  obtain ⟨place, behind, le, begins, closes, closing⟩ := childString_some element
  have first := le_of_find found begins
  rcases lacks with unclosed | unfinished
  · apply unclosed
    obtain ⟨more, rfl⟩ := Nat.exists_eq_add_of_le first
    rw [Nat.add_right_comm, ← List.drop_drop] at closes
    exact List.mem_of_mem_drop closes
  · obtain ⟨more, rfl⟩ := Nat.exists_eq_add_of_le (first.trans le)
    rw [← List.drop_drop] at closing
    exact find_eq_none_iff.mp unfinished more closing

theorem take_name (begins : 60 :: t <+: str.drop p) : (str.drop (p + 1)).take t.length = t := by
  obtain ⟨rest, same⟩ := begins
  rw [← List.drop_drop, ← same, List.cons_append, List.drop_one, List.tail_cons, List.take_left]

/-- Behind the name the buffer may have no terminator. -/
theorem zero_notMem_filled {size count : Nat} (behind : t.length < count) :
    0 ∉ (t ++ 0 :: List.replicate size (1 : UInt8)).drop count := by
  rw [List.drop_append, List.drop_of_length_le behind.le, List.nil_append]
  obtain ⟨more, moreEq⟩ := Nat.exists_eq_succ_of_ne_zero (Nat.sub_pos_of_lt behind).ne'
  rw [moreEq, List.drop_succ_cons, List.drop_replicate]
  simp

/-- What is copied is terminated in every buffer only when it is the name. -/
theorem count_eq_of_extracts (name : Name t) (clean : 0 ∉ str)
    (found : find (60 :: t) str = some p) {count size : Nat} {body : List UInt8}
    (closing : find (closingTag t) (str.drop p) = some count)
    (held : Holds ((str.drop (p + 1)).take (count - 1) ++
      (t ++ 0 :: List.replicate size 1).drop (count - 1)) body) :
    count = t.length + 1 ∧ body = t := by
  have begins := (find_eq_some_iff.mp found).1
  have behind := length_lt_of_closing name begins (find_eq_some_iff.mp closing).1
  rcases Nat.lt_or_eq_of_le behind with longer | rfl
  · obtain ⟨rest, whole⟩ := held.exists_eq
    have terminated : 0 ∈ body ++ 0 :: rest := by simp
    rw [← whole, List.mem_append] at terminated
    rcases terminated with copied | filled
    · exact absurd copied (clean_of_take clean)
    · exact absurd filled (zero_notMem_filled (by omega))
  · rw [Nat.add_sub_cancel, take_name begins, List.drop_left] at held
    exact ⟨rfl, held.unique (holds_append name.clean _)⟩

theorem manageable_of_extracts (name : Name t) (clean : 0 ∉ str) (extracts : Extracts str t) :
    Manageable str t := by
  have holds : Holds (t ++ 0 :: List.replicate str.length 1) t := holds_append name.clean _
  have room : str.length + 1 ≤ (t ++ 0 :: List.replicate str.length 1).length := by
    simp
  obtain ⟨returned, after, called, delivered⟩ := extracts _ holds room
  have short : t.length ≤ str.length := by
    by_contra long
    rw [getChildString_long holds (Nat.lt_of_not_le long)] at called
    cases called
  refine ⟨short, fun p found closes => ?_⟩
  obtain ⟨place, closed⟩ := Option.ne_none_iff_exists'.mp
    (mt find_singleton_eq_none_iff.mp (not_not_intro closes))
  rw [getChildString_tag name clean holds short found closed] at called
  split at called
  · rename_i fits
    refine ⟨fits, fun count closing => ?_⟩
    rw [getFindString_closing name (by omega) found place closing] at called
    cases called
    cases element : childString t str with
    | none =>
        rw [element] at delivered
        cases delivered
    | some body =>
        rw [element] at delivered
        obtain ⟨count_eq, body_eq⟩ := count_eq_of_extracts name clean found closing delivered.2
        exact ⟨count_eq, congrArg some body_eq⟩
  · cases called

theorem extracts_of_manageable (name : Name t) (clean : 0 ∉ str)
    (manageable : Manageable str t) : Extracts str t := by
  obtain ⟨short, tags⟩ := manageable
  intro fndStr holds room
  have spare : 0 < str.length + 1 - t.length := by omega
  cases found : find (60 :: t) str with
  | none =>
      have missing := @findZdXml_eq str t name _ spare
      rw [found] at missing
      refine ⟨false, fndStr, getChildString_missing holds short missing, ?_⟩
      rw [childString_eq_none_of_missing found]
  | some p =>
      by_cases closes : 62 ∈ str.drop (p + (t.length + 1))
      · obtain ⟨place, closed⟩ := Option.ne_none_iff_exists'.mp
          (mt find_singleton_eq_none_iff.mp (not_not_intro closes))
        obtain ⟨fits, named⟩ := tags p found closes
        rw [getChildString_tag name clean holds short found closed, if_pos fits]
        cases closing : find (closingTag t) (str.drop p) with
        | none =>
            refine ⟨false, fndStr, by simp only [getFindString, find_tag found, closing], ?_⟩
            rw [childString_eq_none_of_found found (Or.inr closing)]
        | some count =>
            obtain ⟨rfl, element⟩ := named count closing
            rw [getFindString_closing name (by omega) found place closing, Nat.add_sub_cancel,
              take_name (find_eq_some_iff.mp found).1]
            obtain ⟨rest, rfl⟩ := holds.exists_eq
            refine ⟨true, _, rfl, ?_⟩
            rw [element, List.drop_left]
            exact ⟨rfl, holds⟩
      · have missing := @findZdXml_eq str t name _ spare
        rw [found] at missing
        simp only [find_singleton_eq_none_iff.mpr closes] at missing
        refine ⟨false, fndStr, getChildString_missing holds short missing, ?_⟩
        rw [childString_eq_none_of_found found (Or.inl closes)]

end Extraction

theorem name_letter : Name (literal "t") := by
  constructor <;> decide

end FrameCode.LibXml
