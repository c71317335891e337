import FrameCode.ComextFragments
import FrameCode.ComextMerging

/-!
# When the handlers stay within their memory

The sequence number, the length field and the body length of a fragment are what its sender
says.  `HandleInputMessage` checks none of them, so each handler needs fragments that reach
beyond its fixed fields, and the two that print need body lengths that fit.
-/

namespace FrameCode.ComextBancs

open CheckedCopy Comext CText
open YlSocket (padded length_padded)

/-! ## What the handlers need -/

/-- The output code of a fragment. -/
def codeOf (fragment : List UInt8) : List UInt8 := (fragment.drop 127).take 2

/-- The number of fragments that are printed. -/
def printedCount (fragments : List (List UInt8)) : Nat :=
  fragments.countP fun fragment => decide (Printed (codeOf fragment))

/-- The body fits into the fragment and into what it is copied to: the warning buffer, or the
page from its slot on. -/
def PrintFits (slot : Nat) (fragment : List UInt8) : Prop :=
  ∃ bodylen, bodyLength fragment = some bodylen ∧ 0 ≤ bodylen ∧
    129 + bodylen ≤ fragment.length ∧
    if codeOf fragment = literal "55" then bodylen ≤ 1015
    else 4 + 1024 * slot + bodylen ≤ messagePageSize

/-- The fragments that get one of the 15 slots of the page fit. -/
def PrintsFit (fragments : List (List UInt8)) : Prop :=
  ∀ done fragment rest, fragments = done ++ fragment :: rest → Printed (codeOf fragment) →
    printedCount done < 15 → PrintFits (printedCount done) fragment

/-- What `Handle010450` and `Handle000450` need. -/
def CoverRecords (width : Nat) (fragments : List (List UInt8)) (final : List UInt8) : Prop :=
  129 ≤ final.length ∧ (codeOf final = literal "01" ∨ Cover (129 + width) fragments)

/-- What each handler needs of the fragments that it merges. -/
def Covered (fragments : List (List UInt8)) (final : List UInt8) : Handler → Prop
  | .handle010450 => CoverRecords 268 fragments final
  | .handle000450 => CoverRecords 45 fragments final
  | .handleWithOutputcode => Cover 129 fragments ∧ PrintsFit fragments
  | .handle020430 =>
      129 ≤ final.length ∧
        if codeOf final = literal "01" then (fragments.headD []).length ≤ final.length
        else 209 ≤ final.length ∧ Cover 129 fragments
  | .handle007017 => fragments.length = 1 ∨ Cover (129 + 148) fragments
  | .handle000600 => fragments.length = 1 ∨ Cover 129 fragments
  | .handle060451 => True
  | .handle020450 => fragments.length = 1 ∨ Cover (129 + 19) fragments
  | .iHandleNoOutputcode => fragments.length = 1 ∨ (Cover 129 fragments ∧ PrintsFit fragments)

/-! ## One handler -/

section Handlers

variable {fragments : List (List UInt8)} {final : List UInt8}

theorem outputcode_eq {fragment : List UInt8} (covers : 129 ≤ fragment.length) :
    outputcode fragment = some (codeOf fragment) :=
  read_eq (by decide) (by
    change (127 : Int) + 2 ≤ _
    omega)

theorem copyWhole_isSome {measured copied : List UInt8} (right : Measured measured)
    (covers : measured.length ≤ copied.length) :
    ∃ merged, copyWhole measured copied = some merged := by
  have small := right.length_le
  have nonnegative := right.le_length
  have found := @read_eq _ copied 0 ((measured.length : Int) - 5 + 5) (by omega) (by omega)
  obtain ⟨s, appended, -⟩ := Merging.holds_start.append (by unfold messagePageSize; omega) found
  exact ⟨s.merged, by rw [copyWhole, right]; exact congrArg (Option.bind · _) appended⟩

/-- A turn that copies a body is within the fragment. -/
theorem Merging.Holds.copyBody_isSome {s : Merging} {cells : List (Option UInt8)}
    (holds : s.Holds cells) {fragment : List UInt8} (measured : Measured fragment)
    (covers : 129 ≤ fragment.length) {number i : Nat}
    (wide : i = number → 209 ≤ fragment.length) :
    ∃ s', copyBody number i fragment s = some s' ∧ ∃ cells, s'.Holds cells := by
  have small := measured.length_le
  have count : 0 ≤ (if i = number then (fragment.length : Int) - 5 - bancsHeaderLength - 82
      else (fragment.length : Int) - 5 - bancsHeaderLength - 2) ∧
    (if i = number then (fragment.length : Int) - 5 - bancsHeaderLength - 82
      else (fragment.length : Int) - 5 - bancsHeaderLength - 2) ≤ fragment.length - 129 := by
    unfold bancsHeaderLength
    split
    · have := wide ‹_›
      omega
    · omega
  obtain ⟨s', appended, holds'⟩ := holds.append (by unfold messagePageSize; omega)
    (@read_eq _ fragment (headersLength + 2) _ count.1 (by
      unfold headersLength protocolHeaderLength
      change (129 : Int) + _ ≤ _
      omega))
  exact ⟨s', by rw [copyBody, measured]; exact appended, _, holds'⟩

theorem MergesTo.isSome {result : Option Merged} {bytes : List UInt8}
    (merges : MergesTo result bytes) : ∃ merged, result = some merged :=
  let ⟨merged, resultEq, _⟩ := merges
  ⟨merged, resultEq⟩

namespace Fragmented

variable (fragmented : Fragmented fragments final)

include fragmented

/-- A single fragment is copied as it is. -/
theorem copyFirst_isSome :
    ∃ merged, copyWhole (fragments.headD []) (fragments.headD []) = some merged :=
  copyWhole_isSome (fragmented.measured _ fragmented.headD_mem) le_rfl

/-- Handlers that copy a single fragment as it is need more of several ones only. -/
theorem isSome_of_several {needs : Prop} {result : Option Merged}
    (covered : fragments.length = 1 ∨ needs)
    (copies : fragments.length = 1 →
      result = copyWhole (fragments.headD []) (fragments.headD []))
    (merges : 2 ≤ fragments.length → needs → ∃ merged, result = some merged) :
    ∃ merged, result = some merged := by
  by_cases single : fragments.length = 1
  · rw [copies single]
    exact fragmented.copyFirst_isSome
  · have nonempty := fragmented.nonempty
    exact merges (by omega) (covered.resolve_left single)

theorem handleRecords_isSome {width : Nat} (small : width ≤ 9875)
    (covered : CoverRecords width fragments final) :
    ∃ merged, handleRecords fragments (fragments.length - 1) width = some merged := by
  obtain ⟨coversFinal, covers⟩ := covered
  by_cases single : codeOf final = literal "01"
  · obtain ⟨merged, copied⟩ := fragmented.copyFirst_isSome
    refine ⟨merged, ?_⟩
    simp only [handleRecords, fragmented.getElem?_last, fragmented.getElem?_first,
      outputcode_eq coversFinal, Option.bind_eq_bind, Option.bind_some, if_pos single, copied]
  · exact (handleRecords_mergesTo fragmented small (covers.resolve_left single) single).isSome

theorem handle000600_isSome (covered : fragments.length = 1 ∨ Cover 129 fragments) :
    ∃ merged, handle000600 fragments (fragments.length - 1) = some merged := by
  apply fragmented.isSome_of_several covered
  · intro single
    simp only [handle000600, fragmented.getElem?_first, single, Option.bind_eq_bind,
      Option.bind_some, Nat.sub_self, if_true]
  · exact fun several covers => (handle000600_mergesTo fragmented several covers).isSome

theorem handlePages_isSome {width : Nat} (small : width ≤ 9875)
    (covered : fragments.length = 1 ∨ Cover (129 + width) fragments) :
    ∃ merged, handlePages fragments (fragments.length - 1) width = some merged := by
  apply fragmented.isSome_of_several covered
  · intro single
    simp only [handlePages, fragmented.getElem?_first, single, Option.bind_eq_bind,
      Option.bind_some, Nat.sub_self, if_true]
  · exact fun several covers => (handlePages_mergesTo fragmented several small covers).isSome

theorem handle060451_isSome (headers : Cover 127 fragments) :
    ∃ merged, handle060451 fragments (fragments.length - 1) = some merged := by
  apply fragmented.isSome_of_several (Or.inr headers)
  · intro single
    simp only [handle060451, fragmented.getElem?_first, single, Option.bind_eq_bind,
      Option.bind_some, Nat.sub_self, if_true]
  · exact fun several covers => (handle060451_mergesTo fragmented several covers).isSome

/-- The last fragment is copied with its end in front, so that it needs 80 bytes more. -/
theorem handle020430_isSome (covered : Covered fragments final .handle020430) :
    ∃ merged, handle020430 fragments (fragments.length - 1) = some merged := by
  obtain ⟨coversFinal, covers⟩ := covered
  have measuredFinal := fragmented.measured final fragmented.flagged.mem
  by_cases single : codeOf final = literal "01"
  · rw [if_pos single] at covers
    obtain ⟨merged, copied⟩ :=
      copyWhole_isSome (fragmented.measured _ fragmented.headD_mem) covers
    refine ⟨merged, ?_⟩
    simp only [handle020430, fragmented.getElem?_last, fragmented.getElem?_first,
      outputcode_eq coversFinal, Option.bind_eq_bind, Option.bind_some, if_pos single, copied]
  · rw [if_neg single] at covers
    obtain ⟨wide, covers⟩ := covers
    obtain ⟨s, headed, holds, length⟩ :=
      @Merging.putHeader_start final (headersLength + 2) coversFinal (by decide)
    have page := holds.page
    obtain ⟨tail, found⟩ : ∃ tail,
        read final ((final.length : Int) - 5 + 5 - 80).toNat 80 = some tail :=
      ⟨_, read_eq (by decide) (by omega)⟩
    have eighty := length_of_read found
    have fits : ((final.take (headersLength + 2)).map some).length + tail.length ≤
        s.memory.length := by
      have coversHeader : headersLength + 2 ≤ final.length := coversFinal
      rw [List.length_map, List.length_take_of_le coversHeader]
      unfold headersLength protocolHeaderLength bancsHeaderLength
      unfold messagePageSize at page
      omega
    obtain ⟨memory, written, holdsTail⟩ := holds.write fits
    rw [show tail.length = 80 by omega] at holdsTail
    obtain ⟨t, looped, -⟩ := @mergeLoop_spec _ (copyBody (fragments.length - 1))
      (fun _ s => some s.merged) _ _ fragmented.flagged (fun _ s => ∃ cells, s.Holds cells) _
      ⟨_, holdsTail⟩ (by
        rintro done fragment rest s whole ⟨cells, holds⟩
        have member : fragment ∈ fragments := by simp [whole]
        apply holds.copyBody_isSome (fragmented.measured fragment member) (covers fragment member)
        intro isLast
        have here : fragments[done.length]? = some fragment := by simp [whole]
        rw [isLast, fragmented.getElem?_last] at here
        exact Option.some.inj here ▸ wide)
    refine ⟨t.merged, ?_⟩
    simp only [handle020430, fragmented.getElem?_last, fragmented.take_all,
      outputcode_eq coversFinal, Option.bind_eq_bind, Option.bind_some, if_neg single, headed,
      show declaredLength final = _ from measuredFinal]
    rw [if_pos (by omega), found, Option.bind_some, written, Option.bind_some, looped]

end Fragmented

end Handlers

/-! ## The handlers that print -/

theorem length_printPage : printPage.length = messagePageSize := by
  rw [printPage, List.length_map, List.length_append, List.length_append, List.length_replicate]
  rfl

theorem exists_warningCells {fragment : List UInt8} {bodylen : Int} (nonnegative : 0 ≤ bodylen)
    (within : 129 + bodylen ≤ fragment.length) (small : bodylen ≤ 1015) :
    ∃ cells, warningCells fragment bodylen = some cells ∧ (cells.length : Int) = 10 + bodylen := by
  obtain ⟨warning, first, warningLength⟩ := @exists_write _
    (List.replicate (1024 + 1) (none : Option UInt8))
    ((literal "55WARNING:" ++ [0]).map some) 0 (by
      rw [List.length_replicate]
      decide)
  rw [List.length_replicate] at warningLength
  obtain ⟨body, found, bodyLength⟩ := @exists_read _ fragment (headersLength + 2) bodylen
    nonnegative (by
      change (129 : Int) + _ ≤ _
      omega)
  obtain ⟨warning', second, warningLength'⟩ := @exists_write _ warning (body.map some) 10 (by
    rw [List.length_map, warningLength]
    omega)
  obtain ⟨cells, copied, cellsLength⟩ := @exists_read _ warning' 0 (10 + bodylen) (by omega) (by
    rw [warningLength', warningLength]
    omega)
  refine ⟨cells, ?_, cellsLength⟩
  simp only [warningCells, first, Option.bind_eq_bind, Option.bind_some, found, second, copied]

namespace Printing

/-- The variables when `count` fragments have been printed. -/
structure Within (s : Printing) (count : Nat) : Prop where
  merging : ∃ cells, s.merging.Holds cells
  fresh : s.fristFlag = false → s.merging = Merging.start
  page : (count = 0 ∧ s.pmsgprint = none) ∨
    (0 < count ∧ s.imsgprintLength = 4 + 1024 * min count 15 ∧
      ∃ page, s.pmsgprint = some page ∧ page.length = messagePageSize)

section Steps

variable {s : Printing} {count : Nat} {fragment : List UInt8} {bodylen : Int}

theorem Within.openPage (within : s.Within count) :
    ∃ page, s.openPage = (page, 4 + 1024 * min count 15) ∧ page.length = messagePageSize := by
  rcases within.page with ⟨rfl, closed⟩ | ⟨-, length, page, opened, pageLength⟩
  · exact ⟨printPage, by simp [Printing.openPage, closed], length_printPage⟩
  · exact ⟨page, by simp [Printing.openPage, opened, length], pageLength⟩

/-- The cells of a printed fragment end within the page. -/
theorem exists_printCells (fits : PrintFits count fragment) (slot : count < 15)
    (found : bodyLength fragment = some bodylen) :
    ∃ cells, printCells fragment (codeOf fragment) bodylen = some cells ∧
      4 + 1024 * count + cells.length ≤ messagePageSize := by
  obtain ⟨bodylen', found', nonnegative, inside, room⟩ := fits
  obtain rfl : bodylen' = bodylen := Option.some.inj (found'.symm.trans found)
  unfold printCells
  by_cases warning : codeOf fragment = literal "55"
  · rw [if_pos warning] at room ⊢
    obtain ⟨cells, copied, cellsLength⟩ := exists_warningCells nonnegative inside room
    refine ⟨cells, copied, ?_⟩
    unfold messagePageSize
    omega
  · rw [if_neg warning] at room ⊢
    obtain ⟨body, copied, bodyLength⟩ := @exists_read _ fragment (headersLength + 2) bodylen'
      nonnegative (by
        change (129 : Int) + _ ≤ _
        omega)
    refine ⟨body.map some, by rw [copied]; rfl, ?_⟩
    rw [List.length_map]
    omega

/-- A fragment is printed within its slot and the page. -/
theorem Within.print (within : s.Within count)
    (found : bodyLength fragment = some bodylen) (fits : count < 15 → PrintFits count fragment) :
    ∃ s', s.print fragment (codeOf fragment) bodylen = some s' ∧ s'.Within (count + 1) := by
  obtain ⟨page, opened, pageLength⟩ := within.openPage
  unfold Printing.print
  rw [opened]
  dsimp only
  by_cases slot : count < 15
  · have minimum : min count 15 = count := Nat.min_eq_left slot.le
    have slotFree : 4 + 1024 * min count 15 < messagePageSize - 1024 := by
      unfold messagePageSize
      omega
    obtain ⟨cells, printed, cellsFit⟩ := exists_printCells (fits slot) slot found
    obtain ⟨page', written, pageLength'⟩ := @exists_write _ page cells (4 + 1024 * min count 15) (by
      rw [minimum, pageLength]
      exact cellsFit)
    rw [if_pos slotFree, printed, Option.bind_eq_bind, Option.bind_some, written]
    refine ⟨_, rfl, within.merging, within.fresh, Or.inr ⟨Nat.succ_pos _, ?_, page', rfl, ?_⟩⟩
    · dsimp only
      omega
    · rw [pageLength', pageLength]
  · have slotTaken : ¬ 4 + 1024 * min count 15 < messagePageSize - 1024 := by
      unfold messagePageSize
      omega
    rw [if_neg slotTaken]
    refine ⟨_, rfl, within.merging, within.fresh,
      Or.inr ⟨Nat.succ_pos _, ?_, page, rfl, pageLength⟩⟩
    dsimp only
    omega

/-- The message has been begun or begins with the header of this fragment. -/
theorem Within.begin (within : s.Within count) {kept : Nat} (small : kept ≤ 2)
    (covers : 129 ≤ fragment.length) :
    ∃ merging, s.begin kept fragment = some merging ∧ ∃ cells, merging.Holds cells := by
  have header : headersLength + kept = 127 + kept := rfl
  unfold Printing.begin
  cases frist : s.fristFlag with
  | true => exact ⟨s.merging, rfl, within.merging⟩
  | false =>
      rw [within.fresh frist]
      obtain ⟨merging, headed, holds, -⟩ := @Merging.putHeader_start fragment
        (headersLength + kept) (by omega) (by unfold messagePageSize; omega)
      exact ⟨merging, by simpa using headed, _, holds⟩

/-- A fragment is copied behind the header of the first one. -/
theorem Within.copy (within : s.Within count) {kept : Nat} (small : kept ≤ 2)
    (measured : Measured fragment) (covers : 129 ≤ fragment.length) :
    ∃ s', s.copy kept fragment ((fragment.length : Int) - 5) = some s' ∧ s'.Within count := by
  have short := measured.length_le
  have header : headersLength + kept = 127 + kept := rfl
  obtain ⟨merging, begun, cells, holds⟩ := within.begin small covers
  obtain ⟨rest, found, -⟩ := @exists_read _ fragment (headersLength + kept)
    ((fragment.length : Int) - 5 - bancsHeaderLength - kept)
    (by unfold bancsHeaderLength; omega) (by unfold bancsHeaderLength; omega)
  obtain ⟨merging', appended, holds'⟩ :=
    holds.append (by unfold messagePageSize bancsHeaderLength; omega) found
  refine ⟨{ s with merging := merging', fristFlag := true }, ?_, ⟨_, holds'⟩, nofun, within.page⟩
  simp only [Printing.copy, begun, Option.bind_eq_bind, Option.bind_some, appended]

theorem Within.turn (within : s.Within count) {kept : Nat} (small : kept ≤ 2)
    (measured : Measured fragment) (covers : 129 ≤ fragment.length)
    (fits : Printed (codeOf fragment) → count < 15 → PrintFits count fragment) :
    ∃ s', s.turn kept fragment = some s' ∧
      s'.Within (count + if Printed (codeOf fragment) then 1 else 0) := by
  obtain ⟨digits, found, -⟩ := @exists_read _ fragment (protocolHeaderLength + bodyLengthOffset) 4
    (by decide) (by
      change (9 : Int) + 4 ≤ _
      omega)
  have body : bodyLength fragment = some (atoi digits) := by rw [bodyLength, found]; rfl
  simp only [Printing.turn, show declaredLength fragment = _ from measured, body,
    outputcode_eq covers, Option.bind_eq_bind, Option.bind_some]
  by_cases printed : Printed (codeOf fragment)
  · rw [if_pos printed, if_pos printed]
    exact within.print body (fits printed)
  · rw [if_neg printed, if_neg printed]
    by_cases copied : Copied (codeOf fragment)
    · rw [if_pos copied]
      exact within.copy small measured covers
    · rw [if_neg copied]
      exact ⟨s, rfl, within⟩

/-- At the end the page is put behind the message. -/
theorem Within.finish (within : s.Within count) : ∃ merged, s.finish = some merged := by
  unfold Printing.finish
  rcases within.page with ⟨-, closed⟩ | ⟨-, length, page, opened, pageLength⟩
  · rw [closed]
    exact ⟨_, rfl⟩
  · rw [opened]
    have slots : (s.imsgprintLength - 4) / 1024 = min count 15 := by omega
    have digits : (padded 2 (min count 15)).length = 2 := length_padded (by decide) (by omega)
    obtain ⟨number, found, numberLength⟩ := @exists_read _ (padded 2 (min count 15)) 0 2
      (by decide) (by omega)
    obtain ⟨page', written, pageLength'⟩ := @exists_write _ page (number.map some) 2 (by
      rw [List.length_map, pageLength]
      unfold messagePageSize
      omega)
    obtain ⟨cells, copied, cellsLength⟩ := @exists_read _ page' 0 s.imsgprintLength (by omega) (by
      rw [pageLength', pageLength]
      unfold messagePageSize
      omega)
    obtain ⟨message, holds⟩ := within.merging
    obtain ⟨spare, memoryEq⟩ := holds.memory
    have inside : s.merging.length ≤ s.merging.memory.length := by
      rw [holds.length, memoryEq, List.length_append]
      omega
    obtain ⟨memory, grown, roomy⟩ : ∃ memory,
        (if s.merging.memory.length < s.merging.length + s.imsgprintLength then
          s.merging.memory ++ List.replicate s.imsgprintLength none
        else s.merging.memory) = memory ∧
        s.merging.length + s.imsgprintLength ≤ memory.length := by
      refine ⟨_, rfl, ?_⟩
      split
      · rw [List.length_append, List.length_replicate]
        omega
      · omega
    obtain ⟨memory', put, -⟩ := @exists_write _ memory cells s.merging.length (by omega)
    refine ⟨⟨s.merging.length + s.imsgprintLength, some memory'⟩, ?_⟩
    simp only [slots, found, written, grown, copied, put, Option.bind_eq_bind, Option.bind_some]

end Steps

end Printing

section PrintHandlers

variable {fragments : List (List UInt8)} {final : List UInt8}

theorem printedCount_append (done : List (List UInt8)) (fragment : List UInt8) :
    printedCount (done ++ [fragment]) =
      printedCount done + if Printed (codeOf fragment) then 1 else 0 := by
  unfold printedCount
  rw [List.countP_append, List.countP_singleton]
  congr 1
  simp

namespace Fragmented

variable (fragmented : Fragmented fragments final)

include fragmented

theorem handlePrinted_isSome {kept : Nat} (small : kept ≤ 2) (covers : Cover 129 fragments)
    (fits : PrintsFit fragments) :
    ∃ merged, handlePrinted fragments (fragments.length - 1) kept = some merged := by
  have coversFirst := covers _ fragmented.headD_mem
  have header : headersLength + kept = 127 + kept := rfl
  obtain ⟨s, opened, within⟩ : ∃ s,
      Printing.opening kept (fragments.headD []) (codeOf (fragments.headD [])) = some s ∧
        s.Within 0 := by
    unfold Printing.opening
    split
    · exact ⟨_, rfl, ⟨[], Merging.holds_start⟩, fun _ => rfl, Or.inl ⟨rfl, rfl⟩⟩
    · obtain ⟨merging, headed, holds, -⟩ := @Merging.putHeader_start (fragments.headD [])
        (headersLength + kept) (by omega) (by unfold messagePageSize; omega)
      rw [headed]
      exact ⟨_, rfl, ⟨_, holds⟩, nofun, Or.inl ⟨rfl, rfl⟩⟩
  obtain ⟨t, looped, withinEnd⟩ := @mergeLoop_spec _ (fun _ => Printing.turn kept)
    (fun _ => Printing.finish) _ _ fragmented.flagged
    (fun done s => s.Within (printedCount done)) s within (by
      intro done fragment rest s whole within
      have member : fragment ∈ fragments := by simp [whole]
      rw [printedCount_append]
      exact within.turn small (fragmented.measured fragment member) (covers fragment member)
        (fits done fragment rest whole))
  obtain ⟨merged, finished⟩ := withinEnd.finish
  refine ⟨merged, ?_⟩
  simp only [handlePrinted, fragmented.getElem?_first, fragmented.take_all,
    outputcode_eq coversFirst, opened, Option.bind_eq_bind, Option.bind_some, looped, finished]

theorem iHandleNoOutputcode_isSome
    (covered : fragments.length = 1 ∨ (Cover 129 fragments ∧ PrintsFit fragments)) :
    ∃ merged, iHandleNoOutputcode fragments (fragments.length - 1) = some merged := by
  apply fragmented.isSome_of_several covered
  · intro single
    simp only [iHandleNoOutputcode, fragmented.getElem?_first, single, Option.bind_eq_bind,
      Option.bind_some, Nat.sub_self, if_true]
  · rintro several ⟨covers, fits⟩
    obtain ⟨merged, handled⟩ := fragmented.handlePrinted_isSome le_rfl covers fits
    refine ⟨merged, ?_⟩
    simp only [iHandleNoOutputcode, fragmented.getElem?_first, Option.bind_eq_bind,
      Option.bind_some, if_neg (show fragments.length - 1 ≠ 0 by omega), handled]

/-- A handler whose needs are met makes all its copies within bounds. -/
theorem runHandler_isSome (headers : Cover 127 fragments) {handler : Handler}
    (covered : Covered fragments final handler) :
    ∃ merged, runHandler fragments (fragments.length - 1) handler = some merged := by
  cases handler with
  | handle010450 => exact fragmented.handleRecords_isSome (by decide) covered
  | handle000450 => exact fragmented.handleRecords_isSome (by decide) covered
  | handleWithOutputcode => exact fragmented.handlePrinted_isSome (by decide) covered.1 covered.2
  | handle020430 => exact fragmented.handle020430_isSome covered
  | handle007017 => exact fragmented.handlePages_isSome (by decide) covered
  | handle000600 => exact fragmented.handle000600_isSome covered
  | handle060451 => exact fragmented.handle060451_isSome headers
  | handle020450 => exact fragmented.handlePages_isSome (by decide) covered
  | iHandleNoOutputcode => exact fragmented.iHandleNoOutputcode_isSome covered

end Fragmented

end PrintHandlers

end FrameCode.ComextBancs
