import FrameCode.ComextHandlers

/-!
# What the handlers merge

The message is built from left to right: the cells that are written, or left to be written
later, are followed by spare ones.  A fragment declares at most 9999 bytes, so that one more
page is always enough for it.
-/

namespace FrameCode.ComextBancs

open CheckedCopy Comext CText
open YlSocket (padded length_padded)

/-! ## Fragments -/

/-- The length field of a fragment is right. -/
def Measured (fragment : List UInt8) : Prop :=
  declaredLength fragment = some ((fragment.length : Int) - 5)

instance (fragment : List UInt8) : Decidable (Measured fragment) :=
  inferInstanceAs (Decidable (_ = _))

theorem Measured.length_le {fragment : List UInt8} (measured : Measured fragment) :
    fragment.length ≤ 10004 := by
  obtain ⟨digits, found, value⟩ := Option.map_eq_some_iff.mp measured
  have few := length_of_read found
  have bound := (abs_lt.mp (abs_atoi_lt (show digits.length ≤ 9 by omega))).2
  rw [show digits.length = 4 by omega] at bound
  omega

theorem Measured.le_length {fragment : List UInt8} (measured : Measured fragment) :
    5 ≤ fragment.length := by
  obtain ⟨digits, found, -⟩ := Option.map_eq_some_iff.mp measured
  have within := (read_eq_some_iff.mp found).2.1
  omega

/-! ## The message from left to right -/

namespace Merging

/-- The cells of the message so far, followed by spare ones. -/
structure Holds (s : Merging) (cells : List (Option UInt8)) : Prop where
  length : s.length = cells.length
  memory : ∃ spare, s.memory = cells ++ List.replicate spare none
  page : messagePageSize ≤ s.memory.length

section Steps

variable {s : Merging} {cells : List (Option UInt8)} {fragment bytes : List UInt8}

theorem holds_start : start.Holds [] where
  length := rfl
  memory := ⟨messagePageSize, rfl⟩
  page := by
    rw [start, List.length_replicate]

theorem Holds.reserve (holds : s.Holds cells) (count : Nat)
    (fits : cells.length + count ≤ messagePageSize) :
    (s.reserve count).Holds (cells ++ List.replicate count none) := by
  obtain ⟨spare, memory⟩ := holds.memory
  have page := holds.page
  have length := holds.length
  refine ⟨by simp [Merging.reserve, length], ⟨spare - count, ?_⟩, page⟩
  rw [memory, List.length_append, List.length_replicate] at page
  rw [Merging.reserve, memory, List.append_assoc, List.replicate_append_replicate]
  congr 2
  omega

/-- The header is copied into the first page. -/
theorem putHeader_start {count : Nat} (within : count ≤ fragment.length)
    (fits : count ≤ messagePageSize) :
    ∃ s', start.putHeader fragment count = some s' ∧
      s'.Holds ((fragment.take count).map some) ∧ s'.length = count := by
  have found : read fragment 0 count = some (fragment.take count) := by
    rw [read_eq (by omega) (by omega)]
    simp
  have written := @write_behind _ [] ((fragment.take count).map some) none messagePageSize
    (by simp; omega)
  refine ⟨_, by rw [putHeader, found, start]; exact congrArg (Option.bind · _) written, ?_⟩
  refine ⟨⟨by simpa using within, ⟨_, rfl⟩, ?_⟩, rfl⟩
  simp
  omega

/-- Cells are left behind the header. -/
theorem putHeader_reserve {count left : Nat} (within : count ≤ fragment.length)
    (fits : count + left ≤ messagePageSize) :
    ∃ s', start.putHeader fragment count = some s' ∧ s'.length = count ∧
      (s'.reserve left).Holds ((fragment.take count).map some ++ List.replicate left none) := by
  obtain ⟨s', headed, holds, length⟩ := putHeader_start within (by omega)
  refine ⟨s', headed, length, holds.reserve left ?_⟩
  rwa [List.length_map, List.length_take_of_le within]

/-- Bytes for which there is room are written behind the cells. -/
theorem Holds.write (holds : s.Holds cells)
    (fits : cells.length + bytes.length ≤ s.memory.length) :
    ∃ memory, CheckedCopy.write s.memory s.length (bytes.map some) = some memory ∧
      Holds ⟨memory, s.length + bytes.length⟩ (cells ++ bytes.map some) := by
  obtain ⟨length, ⟨spare, memory⟩, page⟩ := holds
  rw [memory, List.length_append, List.length_replicate] at fits
  have written := @write_behind _ cells (bytes.map some) none spare (by simp; omega)
  rw [← memory, ← length] at written
  refine ⟨_, written, by simp [length], ⟨_, rfl⟩, ?_⟩
  rw [length_write written]
  exact page

/-- After one more page the bytes fit. -/
theorem Holds.makeRoom (holds : s.Holds cells) {messageLength : Int}
    (small : messageLength ≤ messagePageSize) :
    (s.makeRoom messageLength).Holds cells ∧
      (cells.length : Int) + messageLength ≤ (s.makeRoom messageLength).memory.length := by
  obtain ⟨length, ⟨spare, memory⟩, page⟩ := holds
  unfold Merging.makeRoom
  split
  · refine ⟨⟨length, ⟨spare + messagePageSize, ?_⟩, ?_⟩, ?_⟩
    · rw [memory, List.append_assoc, List.replicate_append_replicate]
    · simp only [List.length_append, List.length_replicate]
      omega
    · simp only [memory, List.length_append, List.length_replicate]
      omega
  · rename_i room
    rw [length] at room
    exact ⟨⟨length, ⟨spare, memory⟩, page⟩, by omega⟩

/-- What is read from a fragment is appended. -/
theorem Holds.append (holds : s.Holds cells) {offset : Nat} {messageLength : Int}
    (small : messageLength ≤ messagePageSize)
    (found : CheckedCopy.read fragment offset messageLength = some bytes) :
    ∃ s', s.append fragment offset messageLength = some s' ∧
      s'.Holds (cells ++ bytes.map some) := by
  obtain ⟨roomy, fits⟩ := holds.makeRoom small
  have count := length_of_read found
  have sameCount : messageLength.toNat = bytes.length := by omega
  obtain ⟨memory, written, holds'⟩ := @Holds.write _ cells bytes roomy (by omega)
  refine ⟨_, ?_, holds'⟩
  simp [Merging.append, found, written, sameCount]

/-- Cells that were left are written. -/
theorem Holds.patch {before old rest : List (Option UInt8)}
    (holds : s.Holds (before ++ old ++ rest)) (same : bytes.length = old.length) :
    ∃ s', s.patch before.length bytes = some s' ∧
      s'.Holds (before ++ bytes.map some ++ rest) := by
  obtain ⟨length, ⟨spare, memory⟩, page⟩ := holds
  have written := write_middle before old (bytes.map some) (rest ++ List.replicate spare none)
    (by simpa using same)
  rw [← List.append_assoc, ← memory] at written
  refine ⟨⟨_, s.length⟩, by rw [Merging.patch, written]; rfl, ?_, ⟨spare, by simp⟩, ?_⟩
  · simp [length, same]
  · rw [← length_write written] at page
    exact page

end Steps

end Merging

/-! ## The loops -/

section Loops

variable {σ : Type} {turn : Nat → List UInt8 → σ → Option σ}
  {last : List UInt8 → σ → Option Merged} {fragments : List (List UInt8)}

/-- Only the last fragment is flagged as such. -/
structure Flagged (fragments : List (List UInt8)) (final : List UInt8) : Prop where
  last : fragments.getLast? = some final
  ends : Ends final
  earlier : ∀ fragment ∈ fragments.dropLast, ¬ Ends fragment

/-- The loop takes all fragments when only the last one is flagged; `P` holds of the fragments
that have been taken and the variables. -/
theorem mergeLoop_spec {final : List UInt8} (flagged : Flagged fragments final)
    (P : List (List UInt8) → σ → Prop) {s : σ} (holds : P [] s)
    (step : ∀ done fragment rest s, fragments = done ++ fragment :: rest → P done s →
      ∃ s', turn done.length fragment s = some s' ∧ P (done ++ [fragment]) s') :
    ∃ s', mergeLoop turn last 0 fragments s = last final s' ∧ P fragments s' := by
  have loop (done rest : List (List UInt8)) (nonempty : rest ≠ [])
      (whole : fragments = done ++ rest) (s : σ) (holds : P done s) :
      ∃ s', mergeLoop turn last done.length rest s = last final s' ∧ P fragments s' := by
    induction rest generalizing done s with
    | nil => exact absurd rfl nonempty
    | cons fragment rest ih =>
        obtain ⟨s', taken, holds'⟩ := step done fragment rest s whole holds
        rw [mergeLoop, taken]
        cases rest with
        | nil =>
            have lastEq := flagged.last
            rw [whole, List.getLast?_concat] at lastEq
            cases lastEq
            rw [whole]
            exact ⟨s', by simp [flagged.ends], holds'⟩
        | cons next rest =>
            have early : ¬ Ends fragment := by
              apply flagged.earlier
              rw [whole, List.dropLast_append_of_ne_nil (by simp)]
              simp
            have next := ih (done ++ [fragment]) (by simp) (by rw [whole]; simp) s' holds'
            rw [List.length_append, List.length_singleton] at next
            simpa [early] using next
  have nonempty : fragments ≠ [] := by
    intro empty
    have lastEq := flagged.last
    rw [empty] at lastEq
    cases lastEq
  exact loop [] fragments nonempty rfl s holds

end Loops

namespace Merging

variable {s : Merging} {cells : List (Option UInt8)} {fragments : List (List UInt8)}

/-- A turn that copies the rest of a fragment. -/
theorem Holds.copyRest (holds : s.Holds cells) {skipped : Nat} {fragment : List UInt8}
    (measured : Measured fragment) (covers : headersLength + skipped ≤ fragment.length) :
    ∃ s', ComextBancs.copyRest skipped fragment s = some s' ∧
      s'.Holds (cells ++ (fragment.drop (headersLength + skipped)).map some) := by
  have small := measured.length_le
  unfold headersLength protocolHeaderLength at covers
  have found : CheckedCopy.read fragment (headersLength + skipped)
      ((fragment.length : Int) - 5 - bancsHeaderLength - skipped) =
        some (fragment.drop (headersLength + skipped)) := by
    unfold headersLength protocolHeaderLength
    exact read_rest covers (by push_cast; omega)
  obtain ⟨s', appended, holds'⟩ := holds.append (by unfold messagePageSize; omega) found
  exact ⟨s', by rw [ComextBancs.copyRest, measured]; exact appended, holds'⟩

/-- The loop that copies the rests of all fragments. -/
theorem Holds.copyRests (holds : s.Holds cells) (skipped : Nat) {final : List UInt8}
    (last : List UInt8 → Merging → Option Merged) (flagged : Flagged fragments final)
    (measured : ∀ fragment ∈ fragments, Measured fragment)
    (covers : ∀ fragment ∈ fragments, headersLength + skipped ≤ fragment.length) :
    ∃ s', mergeLoop (fun _ => ComextBancs.copyRest skipped) last 0 fragments s = last final s' ∧
      s'.Holds (cells ++ (fragments.flatMap (List.drop (headersLength + skipped))).map some) := by
  refine mergeLoop_spec flagged (fun done (s : Merging) =>
    s.Holds (cells ++ (done.flatMap (List.drop (headersLength + skipped))).map some)) ?_ ?_
  · simpa using holds
  · intro done fragment rest s whole holds
    have member : fragment ∈ fragments := by simp [whole]
    obtain ⟨s', copied, holds'⟩ :=
      holds.copyRest (measured fragment member) (covers fragment member)
    exact ⟨s', copied, by simpa using holds'⟩

/-- The loop that collects the beginnings of all bodies. -/
theorem Holds.collect (holds : s.Holds cells) (width : Nat) (small : width ≤ messagePageSize)
    (covers : ∀ fragment ∈ fragments, headersLength + 2 + width ≤ fragment.length) :
    ∃ s', fragments.foldlM (fun s fragment => s.append fragment (headersLength + 2) width) s =
        some s' ∧
      s'.Holds (cells ++ (fragments.flatMap fun fragment =>
        (fragment.drop (headersLength + 2)).take width).map some) := by
  induction fragments generalizing s cells with
  | nil => exact ⟨s, rfl, by simpa using holds⟩
  | cons fragment fragments ih =>
      rw [List.forall_mem_cons] at covers
      have found := read_eq (Int.natCast_nonneg width)
        (show ((headersLength + 2 : Nat) : Int) + width ≤ fragment.length by omega)
      obtain ⟨s', appended, holds'⟩ := holds.append (by omega) found
      obtain ⟨s'', folded, holds''⟩ := ih holds' covers.2
      refine ⟨s'', by rw [List.foldlM_cons, appended]; exact folded, ?_⟩
      simpa using holds''

end Merging

/-! ## The layouts -/

/-- At most 64 fragments, the capacity of a bucket, with right length fields, of which only the
last one is flagged as such. -/
structure Fragmented (fragments : List (List UInt8)) (final : List UInt8) : Prop where
  bounded : fragments.length ≤ 64
  measured : ∀ fragment ∈ fragments, Measured fragment
  flagged : Flagged fragments final

/-- All fragments reach beyond the fixed fields. -/
def Cover (fixed : Nat) (fragments : List (List UInt8)) : Prop :=
  ∀ fragment ∈ fragments, fixed ≤ fragment.length

/-- The last header with the number of fragments, the beginnings of the bodies and their
rests. -/
def recordsLayout (width : Nat) (fragments : List (List UInt8)) (final : List UInt8) :
    List UInt8 :=
  final.take 129 ++ padded 6 fragments.length ++
    fragments.flatMap (fun fragment => (fragment.drop 129).take width) ++
    fragments.flatMap fun fragment => fragment.drop (129 + width)

/-- The first header with the number of the last fragment, and the bodies. -/
def numberedLayout (fragments : List (List UInt8)) : List UInt8 :=
  (fragments.headD []).take 129 ++ padded 6 (fragments.length - 1) ++
    fragments.flatMap fun fragment => fragment.drop 129

/-- The first header, the beginning of the last body, and the rests of the bodies. -/
def pagesLayout (width : Nat) (fragments : List (List UInt8)) (final : List UInt8) : List UInt8 :=
  (fragments.headD []).take 129 ++ (final.drop 129).take width ++
    fragments.flatMap fun fragment => fragment.drop (129 + width)

/-- The last header without its output code, and the bodies with theirs. -/
def bodiesLayout (fragments : List (List UInt8)) (final : List UInt8) : List UInt8 :=
  final.take 127 ++ fragments.flatMap fun fragment => fragment.drop 127

/-- The handler returns the length of the bytes and leaves them in `*message`. -/
def MergesTo (result : Option Merged) (bytes : List UInt8) : Prop :=
  ∃ merged, result = some merged ∧ merged.length = bytes.length ∧
    ∃ memory, merged.message = some memory ∧ memory.take bytes.length = bytes.map some

section Finish

variable {s : Merging} {header bytes rest : List UInt8}

theorem Merging.Holds.mergesTo (holds : s.Holds (bytes.map some)) :
    MergesTo (some s.merged) bytes := by
  obtain ⟨length, ⟨spare, memory⟩, -⟩ := holds
  refine ⟨s.merged, rfl, by simp [Merging.merged, length], s.memory, rfl, ?_⟩
  rw [memory]
  exact List.take_left' (List.length_map _)

/-- The cells behind the header are written last. -/
theorem Merging.Holds.patch_mergesTo
    (holds : s.Holds (header.map some ++ List.replicate bytes.length none ++ rest.map some)) :
    MergesTo ((s.patch header.length bytes).bind fun s => some s.merged)
      (header ++ bytes ++ rest) := by
  obtain ⟨s', patched, holds'⟩ := @Holds.patch s bytes _ _ _ holds (by simp)
  rw [List.length_map] at patched
  rw [patched]
  apply Merging.Holds.mergesTo
  simpa using holds'

end Finish

section Handlers

variable {fragments : List (List UInt8)} {final : List UInt8}

theorem Flagged.mem (flagged : Flagged fragments final) : final ∈ fragments :=
  List.mem_of_getLast? flagged.last

namespace Fragmented

variable (fragmented : Fragmented fragments final)

include fragmented

theorem nonempty : 0 < fragments.length := List.length_pos_of_mem fragmented.flagged.mem

theorem number_eq : fragments.length - 1 + 1 = fragments.length := by
  have nonempty := fragmented.nonempty
  omega

theorem take_all : fragments.take (fragments.length - 1 + 1) = fragments := by
  rw [fragmented.number_eq, List.take_length]

theorem getElem?_last : fragments[fragments.length - 1]? = some final := by
  rw [← List.getLast?_eq_getElem?]
  exact fragmented.flagged.last

theorem getElem?_first : fragments[0]? = some (fragments.headD []) := by
  have nonempty := fragmented.nonempty
  cases fragments with
  | nil => cases nonempty
  | cons first rest => rfl

theorem headD_mem : fragments.headD [] ∈ fragments :=
  List.mem_of_getElem? fragmented.getElem?_first

/-- The number of fragments has six digits. -/
theorem read_padded {n : Nat} (bound : n ≤ fragments.length) :
    read (padded 6 n) 0 6 = some (padded 6 n) ∧ (padded 6 n).length = 6 := by
  have bounded := fragmented.bounded
  have digits : (padded 6 n).length = 6 := length_padded (by decide) (by omega)
  have whole := read_left (padded 6 n) []
  rw [digits, List.append_nil] at whole
  exact ⟨whole, digits⟩

end Fragmented

/-- The number of items is written behind the header. -/
theorem putNitems_mergesTo (fragmented : Fragmented fragments final) {s : Merging}
    {header rest : List UInt8} {offset n : Nat} (bound : n ≤ fragments.length)
    (position : offset = header.length)
    (holds : s.Holds (header.map some ++ List.replicate 6 none ++ rest.map some)) :
    MergesTo (putNitems offset n s) (header ++ padded 6 n ++ rest) := by
  obtain ⟨digits, six⟩ := fragmented.read_padded bound
  rw [← six] at holds
  rw [putNitems, digits, position]
  exact holds.patch_mergesTo

/-- The beginning of the last body is written behind the header. -/
theorem putBeginning_mergesTo {s : Merging} {header rest : List UInt8} {width : Nat}
    (covers : 129 + width ≤ final.length) (position : 129 = header.length)
    (holds : s.Holds (header.map some ++ List.replicate width none ++ rest.map some)) :
    MergesTo (putBeginning width final s) (header ++ (final.drop 129).take width ++ rest) := by
  have found : read final (headersLength + 2) width = some ((final.drop 129).take width) :=
    read_eq (Int.natCast_nonneg width) (by
      change (129 : Int) + width ≤ _
      omega)
  have wide : ((final.drop 129).take width).length = width := by
    rw [List.length_take_of_le]
    rw [List.length_drop]
    omega
  rw [← wide] at holds
  rw [putBeginning, found, show headersLength + 2 = header.length from position]
  exact holds.patch_mergesTo

theorem handleRecords_mergesTo (fragmented : Fragmented fragments final) {width : Nat}
    (small : width ≤ 9875) (covers : Cover (129 + width) fragments)
    (answered : (final.drop 127).take 2 ≠ literal "01") :
    MergesTo (handleRecords fragments (fragments.length - 1) width)
      (recordsLayout width fragments final) := by
  have coversFinal := covers final fragmented.flagged.mem
  have code : outputcode final = some ((final.drop 127).take 2) :=
    read_eq (by decide) (by change (127 : Int) + 2 ≤ _; omega)
  have headers : headersLength + 2 = 129 := rfl
  obtain ⟨s, headed, length, reserved⟩ :=
    @Merging.putHeader_reserve final (headersLength + 2) 6 (by omega) (by decide)
  obtain ⟨collected, folded, holdsCollected⟩ :=
    reserved.collect width (by unfold messagePageSize; omega) covers
  obtain ⟨rested, looped, holdsRested⟩ := holdsCollected.copyRests (2 + width)
    (fun _ => putNitems s.length (fragments.length - 1 + 1)) fragmented.flagged
    fragmented.measured (fun fragment member => by
      have := covers fragment member
      change 127 + (2 + width) ≤ _
      omega)
  have result : handleRecords fragments (fragments.length - 1) width =
      putNitems s.length (fragments.length - 1 + 1) rested := by
    simp only [handleRecords, fragmented.getElem?_last, fragmented.take_all, code, headed,
      Option.bind_eq_bind, Option.bind_some, if_neg answered, folded, looped]
  have rests : headersLength + (2 + width) = 129 + width := by
    rw [← headers, Nat.add_assoc]
  rw [result, length, fragmented.number_eq, recordsLayout,
    List.append_assoc _ (fragments.flatMap _)]
  refine putNitems_mergesTo fragmented le_rfl ?_ ?_
  · rw [List.length_take_of_le (by omega), headers]
  · rw [rests, headers] at holdsRested
    simpa using holdsRested

theorem handle000600_mergesTo (fragmented : Fragmented fragments final)
    (several : 2 ≤ fragments.length) (covers : Cover 129 fragments) :
    MergesTo (handle000600 fragments (fragments.length - 1)) (numberedLayout fragments) := by
  have coversFirst := covers _ fragmented.headD_mem
  have headers : headersLength + 2 = 129 := rfl
  obtain ⟨s, headed, length, reserved⟩ :=
    @Merging.putHeader_reserve (fragments.headD []) (headersLength + 2) 6 (by omega) (by decide)
  obtain ⟨rested, looped, holdsRested⟩ := reserved.copyRests 2
    (fun _ => putNitems s.length (fragments.length - 1)) fragmented.flagged
    fragmented.measured covers
  have result : handle000600 fragments (fragments.length - 1) =
      putNitems s.length (fragments.length - 1) rested := by
    have notSingle : fragments.length - 1 ≠ 0 := by omega
    simp only [handle000600, fragmented.getElem?_first, fragmented.take_all, headed,
      Option.bind_eq_bind, Option.bind_some, if_neg notSingle, looped]
  rw [result, length]
  refine putNitems_mergesTo fragmented (Nat.sub_le _ _) ?_ holdsRested
  rw [List.length_take_of_le coversFirst, headers]

theorem handlePages_mergesTo (fragmented : Fragmented fragments final)
    (several : 2 ≤ fragments.length) {width : Nat} (small : width ≤ 9875)
    (covers : Cover (129 + width) fragments) :
    MergesTo (handlePages fragments (fragments.length - 1) width)
      (pagesLayout width fragments final) := by
  have coversFirst := covers _ fragmented.headD_mem
  have coversFinal := covers final fragmented.flagged.mem
  have headers : headersLength + 2 = 129 := rfl
  have rests : headersLength + (2 + width) = 129 + width := by
    rw [← headers, Nat.add_assoc]
  obtain ⟨s, headed, -, reserved⟩ :=
    @Merging.putHeader_reserve (fragments.headD []) (headersLength + 2) width (by omega) (by
      rw [headers]
      unfold messagePageSize
      omega)
  obtain ⟨rested, looped, holdsRested⟩ := reserved.copyRests (2 + width) (putBeginning width)
    fragmented.flagged fragmented.measured (fun fragment member => by
      rw [rests]
      exact covers fragment member)
  have result : handlePages fragments (fragments.length - 1) width =
      putBeginning width final rested := by
    have notSingle : fragments.length - 1 ≠ 0 := by omega
    simp only [handlePages, fragmented.getElem?_first, fragmented.take_all, headed,
      Option.bind_eq_bind, Option.bind_some, if_neg notSingle, looped]
  rw [rests, headers] at holdsRested
  rw [result]
  refine putBeginning_mergesTo coversFinal ?_ holdsRested
  rw [List.length_take_of_le (by omega)]

theorem handle060451_mergesTo (fragmented : Fragmented fragments final)
    (several : 2 ≤ fragments.length) (covers : Cover 127 fragments) :
    MergesTo (handle060451 fragments (fragments.length - 1)) (bodiesLayout fragments final) := by
  have coversFinal := covers final fragmented.flagged.mem
  obtain ⟨s, headed, holds, -⟩ :=
    @Merging.putHeader_start final headersLength coversFinal (by decide)
  obtain ⟨rested, looped, holdsRested⟩ := holds.copyRests 0 (fun _ s => some s.merged)
    fragmented.flagged fragmented.measured covers
  have result : handle060451 fragments (fragments.length - 1) = some rested.merged := by
    have notSingle : fragments.length - 1 ≠ 0 := by omega
    simp only [handle060451, fragmented.getElem?_first, fragmented.getElem?_last,
      fragmented.take_all, headed, Option.bind_eq_bind, Option.bind_some, if_neg notSingle, looped]
  rw [result]
  apply Merging.Holds.mergesTo
  rw [bodiesLayout, List.map_append]
  exact holdsRested

/-- Merging loses nothing: for at least two fragments with right lengths that cover the fixed
fields, of which only the last one is flagged, each of the handlers returns the length of the
message of its layout and leaves this message in `*message`, all copies being within it. -/
theorem handlers_merge (several : 2 ≤ fragments.length)
    (fragmented : Fragmented fragments final) :
    (Cover 397 fragments → (final.drop 127).take 2 ≠ literal "01" →
      MergesTo (handle010450 fragments (fragments.length - 1))
        (recordsLayout 268 fragments final)) ∧
    (Cover 174 fragments → (final.drop 127).take 2 ≠ literal "01" →
      MergesTo (handle000450 fragments (fragments.length - 1))
        (recordsLayout 45 fragments final)) ∧
    (Cover 129 fragments →
      MergesTo (handle000600 fragments (fragments.length - 1)) (numberedLayout fragments)) ∧
    (Cover 148 fragments →
      MergesTo (handle020450 fragments (fragments.length - 1))
        (pagesLayout 19 fragments final)) ∧
    (Cover 277 fragments →
      MergesTo (handle007017 fragments (fragments.length - 1))
        (pagesLayout 148 fragments final)) ∧
    (Cover 127 fragments →
      MergesTo (handle060451 fragments (fragments.length - 1)) (bodiesLayout fragments final)) :=
  ⟨@handleRecords_mergesTo _ _ fragmented 268 (by decide),
    @handleRecords_mergesTo _ _ fragmented 45 (by decide),
    handle000600_mergesTo fragmented several,
    @handlePages_mergesTo _ _ fragmented several 19 (by decide),
    @handlePages_mergesTo _ _ fragmented several 148 (by decide),
    handle060451_mergesTo fragmented several⟩

/-- A fragment of 398 bytes. -/
def pageFragment (flag : UInt8) : List UInt8 :=
  literal "-0393" ++ List.replicate 78 48 ++ flag :: List.replicate 314 65

theorem length_pageFragment (flag : UInt8) : (pageFragment flag).length = 398 := by
  rw [pageFragment, List.length_append, List.length_append, List.length_cons,
    List.length_replicate, List.length_replicate]
  rfl

theorem measured_pageFragment (flag : UInt8) : Measured (pageFragment flag) := by
  have found : read (pageFragment flag) 1 4 = some (literal "0393") := by
    rw [read_eq (by decide) (by rw [length_pageFragment]; decide)]
    rfl
  rw [Measured, declaredLength, found, length_pageFragment]
  rfl

theorem fragmented_pages : Fragmented [pageFragment 48, pageFragment 50] (pageFragment 50) where
  bounded := by decide
  measured := by simp [measured_pageFragment]
  flagged := ⟨rfl, by decide, by decide⟩

theorem handlers_merge_pages :
    MergesTo (handle010450 [pageFragment 48, pageFragment 50] 1)
        (recordsLayout 268 [pageFragment 48, pageFragment 50] (pageFragment 50)) ∧
      MergesTo (handle000600 [pageFragment 48, pageFragment 50] 1)
        (numberedLayout [pageFragment 48, pageFragment 50]) ∧
      MergesTo (handle007017 [pageFragment 48, pageFragment 50] 1)
        (pagesLayout 148 [pageFragment 48, pageFragment 50] (pageFragment 50)) ∧
      MergesTo (handle060451 [pageFragment 48, pageFragment 50] 1)
        (bodiesLayout [pageFragment 48, pageFragment 50] (pageFragment 50)) := by
  have length : ∀ fragment ∈ [pageFragment 48, pageFragment 50], fragment.length = 398 := by
    simp [length_pageFragment]
  have covers (fixed : Nat) (small : fixed ≤ 398) :
      Cover fixed [pageFragment 48, pageFragment 50] :=
    fun fragment member => length fragment member ▸ small
  obtain ⟨records, -, numbered, -, pages, bodies⟩ := handlers_merge (by decide) fragmented_pages
  exact ⟨records (covers 397 (by decide)) (by decide), numbered (covers 129 (by decide)),
    pages (covers 277 (by decide)), bodies (covers 127 (by decide))⟩

end Handlers

end FrameCode.ComextBancs
