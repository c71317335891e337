import FrameCode.BasEncryptRecords
import FrameCode.MarkerScan

/-!
# Logs

A log holds texts as they are and records in between.  Decoding it finds the records by their
marker and gives the texts in the order in which they were written; only in front of what is left
in its buffer at the end it writes a space too many.
-/

namespace FrameCode.BasEncrypt

open CText CheckedCopy StringBlocks MachineInt MarkerScan

/-! ## Plain text -/

theorem text_eq_self {buffer : List UInt8} (clean : 0 ∉ buffer) : text buffer = buffer := by
  rw [text, List.takeWhile_eq_self_iff]
  intro byte member
  exact bne_iff_ne.mpr fun zero => clean (zero ▸ member)

theorem printed_eq {shown rest : List UInt8} (clean : 0 ∉ shown)
    (ends : rest = [] ∨ ∃ more, rest = 0 :: more) : printed (shown ++ rest) shown.length = shown := by
  have textEq : text (shown ++ rest) = shown := by
    rcases ends with rfl | ⟨more, rfl⟩
    · rw [List.append_nil, text_eq_self clean]
    · exact text_append_nul (fun byte member zero => clean (zero ▸ member)) more
  simp only [printed, textEq, List.take_length, Nat.sub_self, List.replicate_zero,
    List.nil_append]

/-- At the end of a log one cell too many is printed. -/
theorem printed_end {buffer : List UInt8} (clean : 0 ∉ buffer) :
    printed buffer (buffer.length + 1) = 32 :: buffer := by
  have textEq := text_eq_self clean
  have all : buffer.take (buffer.length + 1) = buffer := List.take_of_length_le (Nat.le_succ _)
  simp only [printed, textEq, all, Nat.add_sub_cancel_left]
  rfl

/-- Printing the front of a text without NUL bytes. -/
theorem printed_front {buffer : List UInt8} (clean : 0 ∉ buffer) {count : Nat}
    (inside : count ≤ buffer.length) : printed buffer count = buffer.take count := by
  have textEq := text_eq_self clean
  have length : (buffer.take count).length = count := List.length_take_of_le inside
  simp only [printed, textEq, length, Nat.sub_self, List.replicate_zero, List.nil_append]

/-- The output and the buffer hold all the text so far, and the buffer the symbols that have been
matched. -/
structure Pending (fdW caReadbuf : List UInt8) (iMatchCnt : Nat) (text : List UInt8) : Prop where
  whole : fdW ++ caReadbuf = text
  clean : 0 ∉ caReadbuf
  short : caReadbuf.length < maxlen - 1
  enough : iMatchCnt ≤ caReadbuf.length

section Plain

variable {fuel iMatchCnt : Nat} {char : UInt8} {fdR caReadbuf fdW shown : List UInt8}

/-- A character that does not complete the marker. -/
theorem decodeLoop_char (unfinished : advance stcnEncodeHead iMatchCnt char ≠ 4) :
    decodeLoop (fuel + 1) (char :: fdR) caReadbuf iMatchCnt fdW =
      if (caReadbuf ++ [char]).length = maxlen - 1 then
        decodeLoop fuel fdR
          ((caReadbuf ++ [char]).drop
            ((caReadbuf ++ [char]).length - advance stcnEncodeHead iMatchCnt char))
          (advance stcnEncodeHead iMatchCnt char)
          (fdW ++ printed (caReadbuf ++ [char])
            ((caReadbuf ++ [char]).length - advance stcnEncodeHead iMatchCnt char))
      else decodeLoop fuel fdR (caReadbuf ++ [char]) (advance stcnEncodeHead iMatchCnt char) fdW := by
  have count : (if stcnEncodeHead[iMatchCnt]? == some char then iMatchCnt + 1
      else if iMatchCnt ≠ 0 then if stcnEncodeHead[0]? = some char then 1 else 0
      else iMatchCnt) = advance stcnEncodeHead iMatchCnt char := by
    unfold advance
    by_cases next : stcnEncodeHead[iMatchCnt]? = some char
    · rw [if_pos next, if_pos (beq_iff_eq.mpr next)]
    · rw [if_neg next, if_neg (fun found => next (beq_iff_eq.mp found))]
      by_cases first : iMatchCnt = 0
      · subst first
        rw [if_neg next, if_neg (not_not.mpr rfl)]
      · rw [if_pos first]
  have open' : ¬ ((stcnEncodeHead[iMatchCnt]? == some char) = true ∧ iMatchCnt + 1 = 4) := by
    rintro ⟨found, last⟩
    apply unfinished
    rw [advance, if_pos (beq_iff_eq.mp found), last]
  rw [decodeLoop]
  dsimp only
  rw [if_neg open', count]

theorem Pending.next (pending : Pending fdW caReadbuf iMatchCnt shown) (nonzero : char ≠ 0)
    (unfinished : advance stcnEncodeHead iMatchCnt char ≠ 4) (fdR : List UInt8) (fuel : Nat) :
    ∃ buffer written,
      decodeLoop (fuel + 1) (char :: fdR) caReadbuf iMatchCnt fdW =
        decodeLoop fuel fdR buffer (advance stcnEncodeHead iMatchCnt char) written ∧
      Pending written buffer (advance stcnEncodeHead iMatchCnt char) (shown ++ [char]) := by
  have clean : 0 ∉ caReadbuf ++ [char] := by
    rw [List.mem_append, not_or, List.mem_singleton]
    exact ⟨pending.clean, fun zero => nonzero zero.symm⟩
  have length : (caReadbuf ++ [char]).length = caReadbuf.length + 1 := by
    rw [List.length_append, List.length_singleton]
  have few : advance stcnEncodeHead iMatchCnt char ≤ 4 := advance_le stcnEncodeHead _ _
  have enough : advance stcnEncodeHead iMatchCnt char ≤ (caReadbuf ++ [char]).length := by
    have := pending.enough
    rw [length]
    unfold advance
    split
    · omega
    · split <;> omega
  have short := pending.short
  rw [decodeLoop_char unfinished]
  split
  · refine ⟨_, _, rfl, ?_, ?_, ?_, ?_⟩
    · rw [printed_front clean (Nat.sub_le _ _), List.append_assoc, List.take_append_drop,
        ← List.append_assoc, pending.whole]
    · exact fun member => clean (List.mem_of_mem_drop member)
    · rw [List.length_drop]
      unfold maxlen
      omega
    · rw [List.length_drop]
      omega
  · rename_i room
    refine ⟨_, _, rfl, ?_, clean, ?_, enough⟩
    · rw [← List.append_assoc, pending.whole]
    · omega

/-- A text in which the marker is not completed. -/
theorem Pending.plain (pending : Pending fdW caReadbuf iMatchCnt shown) {plain : List UInt8}
    (clean : 0 ∉ plain)
    (unfinished : ∀ front, front <+: plain → front ≠ [] →
      scan stcnEncodeHead iMatchCnt front ≠ 4)
    (fdR : List UInt8) (fuel : Nat) :
    ∃ buffer written,
      decodeLoop (plain.length + fuel) (plain ++ fdR) caReadbuf iMatchCnt fdW =
        decodeLoop fuel fdR buffer (scan stcnEncodeHead iMatchCnt plain) written ∧
      Pending written buffer (scan stcnEncodeHead iMatchCnt plain) (shown ++ plain) := by
  induction plain generalizing fdW caReadbuf iMatchCnt shown with
  | nil =>
      rw [List.append_nil]
      exact ⟨caReadbuf, fdW, by rw [List.length_nil, Nat.zero_add]; rfl, pending⟩
  | cons char rest ih =>
      have nonzero : char ≠ 0 := fun zero => clean (by simp [zero])
      have cleanRest : 0 ∉ rest := fun member => clean (List.mem_cons_of_mem _ member)
      obtain ⟨middle, between, first, kept⟩ := pending.next nonzero
        (unfinished [char] ⟨rest, rfl⟩ (List.cons_ne_nil _ _)) (rest ++ fdR) (rest.length + fuel)
      obtain ⟨buffer, written, others, keptAll⟩ := ih kept cleanRest fun front start nonempty =>
        unfinished (char :: front) (List.cons_prefix_cons.mpr ⟨rfl, start⟩) (List.cons_ne_nil _ _)
      refine ⟨buffer, written, ?_, ?_⟩
      · have count : (char :: rest).length + fuel = rest.length + fuel + 1 := by
          rw [List.length_cons]
          omega
        rw [count, List.cons_append, first, others]
        rfl
      · rw [List.append_assoc] at keptAll
        exact keptAll

theorem pending_start (shown : List UInt8) : Pending shown [] 0 shown :=
  ⟨List.append_nil shown, List.not_mem_nil, by decide, Nat.le_refl 0⟩

/-- A text without the marker, from the beginning of the buffer on. -/
theorem decodeLoop_plain {plain : List UInt8} (clean : 0 ∉ plain)
    (without : ¬ stcnEncodeHead <:+: plain) (fdR shown : List UInt8) (fuel : Nat) :
    ∃ buffer written,
      decodeLoop (plain.length + fuel) (plain ++ fdR) [] 0 shown =
        decodeLoop fuel fdR buffer (scan stcnEncodeHead 0 plain) written ∧
      Pending written buffer (scan stcnEncodeHead 0 plain) (shown ++ plain) :=
  (pending_start shown).plain clean
    (fun _ start _ => Nat.ne_of_lt (scan_lt without start)) fdR fuel

/-- The first symbols of a marker behind a text without the marker. -/
theorem decodeLoop_opening {plain : List UInt8} (clean : 0 ∉ plain)
    (without : ¬ stcnEncodeHead <:+: plain) (fdR shown : List UInt8) (fuel : Nat) :
    ∃ buffer written,
      decodeLoop (plain.length + (3 + fuel)) (plain ++ (stcnEncodeHead.take 3 ++ fdR)) [] 0 shown =
        decodeLoop fuel fdR buffer 3 written ∧
      Pending written buffer 3 (shown ++ plain ++ stcnEncodeHead.take 3) := by
  obtain ⟨middle, between, first, kept⟩ :=
    decodeLoop_plain clean without (stcnEncodeHead.take 3 ++ fdR) shown (3 + fuel)
  have before : scan stcnEncodeHead 0 plain < stcnEncodeHead.length :=
    scan_lt without (List.prefix_refl plain)
  have once : ∀ place, stcnEncodeHead[place]? = stcnEncodeHead[0]? →
      place < stcnEncodeHead.length → place = 0 := by
    intro place same inside
    have all : ∀ place : Fin stcnEncodeHead.length,
        stcnEncodeHead[place.val]? = stcnEncodeHead[0]? → place.val = 0 := by
      decide
    exact all ⟨place, inside⟩ same
  have unfinished : ∀ front, front <+: stcnEncodeHead.take 3 → front ≠ [] →
      scan stcnEncodeHead (scan stcnEncodeHead 0 plain) front ≠ 4 := by
    intro front start nonempty
    have size : front.length ≤ 3 := start.length_le
    have positive := List.length_pos_iff.mpr nonempty
    have fit : front.length ≤ stcnEncodeHead.length := size.trans (by decide)
    have taken : front = stcnEncodeHead.take front.length := by
      rw [List.prefix_iff_eq_take.mp (start.trans (List.take_prefix 3 _))]
      simp
    rw [taken, scan_take once before positive fit]
    omega
  obtain ⟨buffer, written, others, keptAll⟩ := kept.plain (by decide) unfinished fdR fuel
  have three : scan stcnEncodeHead (scan stcnEncodeHead 0 plain) (stcnEncodeHead.take 3) = 3 :=
    scan_take once before (by decide) (by decide)
  rw [three] at others keptAll
  exact ⟨buffer, written, first.trans others, keptAll⟩

end Plain

/-! ## Records in a log -/

section Records

variable {t : Int} {src : List UInt8} {iLen : Nat}

/-- The digits of the length in a record. -/
theorem atoi_lengthDigits {l : Nat} (small : l < 10000000) : atoi (lengthDigits l ++ [0]) = l := by
  have digits : decimal l = decimalNat l := by
    rw [decimal, if_neg (by omega), Int.natAbs_natCast]
  have few : (decimalNat l).length ≤ 7 := length_decimalNat_le (by decide) small
  have all : lengthDigits l = List.replicate (7 - (decimalNat l).length) 48 ++ decimalNat l := by
    rw [lengthDigits, digits]
    apply List.take_of_length_le
    rw [List.length_append, List.length_replicate]
    omega
  have each : ∀ byte ∈ lengthDigits l, isDigit byte = true := by
    intro byte member
    rw [all] at member
    rcases List.mem_append.mp member with zero | digit
    · rw [List.eq_of_mem_replicate zero]
      rfl
    · exact isDigit_decimalNat l byte digit
  have value : digitsValue (lengthDigits l) = l := by
    rw [all, digitsValue_append, digitsValue_replicate, digitsValue_decimalNat, Nat.zero_mul,
      Nat.zero_add]
  rw [atoi, strtol_digits each [], value, clampLong, toInt32_eq] <;> omega

/-- A record behind its marker. -/
theorem exists_record (t : Int) (src : List UInt8) (iLen : Nat) :
    ∃ mask lines, recordText t src iLen =
        stcnEncodeHead ++ (maskChars mask ++ lengthDigits (recordText t src iLen).length) ++
          lines ∧ lines ≠ [] := by
  rw [length_recordText]
  refine ⟨BitVec.ofInt 32 t &&& 0xFFFF,
    linesText (BitVec.ofInt 32 t &&& 0xFFFF) ((iLen + 50) / 51) src iLen ++ [enc 0], ?_, by simp⟩
  simp only [recordText, List.append_assoc]

theorem recordText_eq (t : Int) (src : List UInt8) (iLen : Nat) :
    recordText t src iLen = stcnEncodeHead.take 3 ++ 65 :: (recordText t src iLen).drop 4 := by
  obtain ⟨mask, lines, whole, -⟩ := exists_record t src iLen
  rw [whole, List.append_assoc, List.drop_left' (by rfl)]
  rfl

theorem readRecord_eq {iEncryptPos : Nat} (long : readable iLen ≤ src.length)
    (clean : 0 ∉ src.take iLen) (positive : 0 < iLen)
    (size : (recordText t src iLen).length ≤ maxlen) (early : iEncryptPos < maxlen)
    (rest : List UInt8) :
    readRecord iEncryptPos ((recordText t src iLen).drop 4 ++ rest) =
      some (some (src.take iLen, rest)) := by
  obtain ⟨mask, lines, whole, nonempty⟩ := exists_record t src iLen
  have total := length_recordText t src iLen
  rw [length_linesText _ _ rfl long] at total
  have iLenLe : iLen ≤ src.length := by
    unfold readable at long
    omega
  generalize counted : (recordText t src iLen).length = l at whole size total
  have digits := length_lengthDigits l
  have header : (maskChars mask ++ lengthDigits l).length = 9 := by
    rw [List.length_append, digits]
    rfl
  have length : lines.length + 13 = l := by
    rw [← counted, whole, List.length_append, List.length_append, header]
    change lines.length + 13 = 4 + 9 + lines.length
    omega
  have linesPositive := List.length_pos_iff.mpr nonempty
  have fdR : (recordText t src iLen).drop 4 ++ rest =
      (maskChars mask ++ lengthDigits l) ++ (lines ++ rest) := by
    rw [whole, List.append_assoc, List.drop_left' (by rfl), List.append_assoc]
  have number : atoi ((maskChars mask ++ lengthDigits l).drop 2 ++ [0]) = l := by
    rw [List.drop_left' (by rfl), atoi_lengthDigits (by unfold maxlen at size; omega)]
  have decoded := @ldecodelog_eq t (cleared (maxlen * 2)) src iLen long
    (by rw [cleared, List.length_replicate]; unfold maxlen at size ⊢; omega)
    (cleared (maxlen * 2 - (iEncryptPos + 13 + lines.length)))
  rw [counted] at decoded
  have wanted : (if 13 ≤ (l : Int) then ((l : Int) - 13).toNat
      else (maskChars mask ++ lengthDigits l ++ (lines ++ rest)).length) = lines.length := by
    rw [if_pos (by omega)]
    omega
  have enoughHeader : ¬ (maskChars mask ++ lengthDigits l ++ (lines ++ rest)).length < 9 := by
    rw [List.length_append, header]
    omega
  have shown : printed (src.take iLen ++ (cleared (maxlen * 2)).drop iLen) iLen =
      src.take iLen := by
    have taken : (src.take iLen).length = iLen := List.length_take_of_le iLenLe
    have behind := printed_eq clean
      (Or.inr ⟨cleared (maxlen * 2 - iLen - 1), rfl⟩ :
        0 :: cleared (maxlen * 2 - iLen - 1) = [] ∨ _)
    rw [taken] at behind
    have zeros : (cleared (maxlen * 2)).drop iLen = 0 :: cleared (maxlen * 2 - iLen - 1) := by
      have count : maxlen * 2 - iLen = maxlen * 2 - iLen - 1 + 1 := by
        unfold maxlen at size ⊢
        omega
      rw [cleared, List.drop_replicate, count]
      rfl
    rw [zeros, behind]
  have fits : ¬ iEncryptPos + 13 + lines.length > maxlen * 2 := by
    unfold maxlen at size early ⊢
    omega
  have complete : ¬ (lines.length < lines.length ∨ lines.length = 0) := by omega
  have arranged : stcnEncodeHead ++ (maskChars mask ++ lengthDigits l) ++ lines ++
      cleared (maxlen * 2 - (iEncryptPos + 13 + lines.length)) =
        recordText t src iLen ++ cleared (maxlen * 2 - (iEncryptPos + 13 + lines.length)) := by
    rw [whole]
  rw [fdR, readRecord, if_neg enoughHeader]
  simp only [List.take_left' header, List.drop_left' header, number, wanted, List.take_left,
    List.drop_left, Int.toNat_natCast]
  rw [if_neg fits, if_neg complete, arranged, decoded]
  simp only [Option.bind_eq_bind, Option.bind_some, shown]
  rw [if_neg (by omega)]

/-- The marker is complete and a record follows. -/
theorem decodeLoop_record {buffer written text : List UInt8} (pending : Pending written buffer 3
    (text ++ stcnEncodeHead.take 3)) (long : readable iLen ≤ src.length)
    (clean : 0 ∉ src.take iLen) (positive : 0 < iLen)
    (size : (recordText t src iLen).length ≤ maxlen) (rest : List UInt8) (fuel : Nat) :
    decodeLoop (fuel + 1) (65 :: ((recordText t src iLen).drop 4 ++ rest)) buffer 3 written =
      decodeLoop fuel rest [] 0 (text ++ src.take iLen) := by
  have enough := pending.enough
  have short := pending.short
  have place : (buffer ++ [(65 : UInt8)]).length - 4 = buffer.length - 3 := by
    rw [List.length_append, List.length_singleton]
    omega
  have found : (stcnEncodeHead[3]? == some (65 : UInt8)) = true ∧ 3 + 1 = 4 := ⟨by decide, rfl⟩
  have read := @readRecord_eq t src iLen (buffer.length - 3) long clean positive size (by omega)
    rest
  have cleanAll : 0 ∉ buffer ++ [(65 : UInt8)] := by
    rw [List.mem_append, not_or]
    exact ⟨pending.clean, by decide⟩
  have before : written ++ buffer.take (buffer.length - 3) = text := by
    have lengths := congrArg List.length pending.whole
    have split := pending.whole
    rw [← List.take_append_drop (buffer.length - 3) buffer, ← List.append_assoc] at split
    refine (List.append_inj' split ?_).1
    rw [List.length_drop]
    change buffer.length - (buffer.length - 3) = 3
    omega
  rw [decodeLoop]
  dsimp only
  rw [if_pos found, place, read]
  dsimp only
  rw [printed_front cleanAll (by rw [List.length_append]; omega),
    List.take_append_of_le_length (Nat.sub_le _ _), before]

end Records

/-! ## The log of a program -/

/-- A call of `basBatLog` whose text, and whose record if it is encoded, fit into its buffers. -/
structure LogCall where
  pENCLOG : Option (List UInt8)
  t : Int
  caOutBuf : List UInt8
  message : List UInt8
  holds : Holds caOutBuf message
  size : caOutBuf.length = 51200
  fits : pENCLOG.map text = some (literal "Y") →
    14 + (message.length + 50) / 51 + 4 * ((message.length + 2) / 3) < 51200

/-- What the calls append to the log. -/
def logOf : List LogCall → Option (List UInt8)
  | [] => some []
  | call :: rest => do
      let first ← basBatLog call.pENCLOG call.t call.caOutBuf
      let others ← logOf rest
      some (first ++ others)

/-- No record is empty, and the texts between two records do not have the marker in them; `run` is
the text since the last record. -/
def Clear (run : List UInt8) : List LogCall → Prop
  | [] => ¬ stcnEncodeHead <:+: run
  | call :: rest =>
      if call.pENCLOG.map text = some (literal "Y") then
        ¬ stcnEncodeHead <:+: run ∧ call.message ≠ [] ∧ Clear [] rest
      else Clear (run ++ call.message) rest

theorem LogCall.take_message (call : LogCall) :
    call.caOutBuf.take call.message.length = call.message := by
  obtain ⟨behind, whole⟩ := call.holds.exists_eq
  rw [whole, List.take_left]

/-- What a call appends. -/
theorem LogCall.appended (call : LogCall) :
    basBatLog call.pENCLOG call.t call.caOutBuf =
      some (if call.pENCLOG.map text = some (literal "Y") then
        recordText call.t call.caOutBuf call.message.length else call.message) := by
  have shorter := call.holds.length_lt
  have size := call.size
  unfold basBatLog
  rw [call.holds.strlen_eq, Option.bind_eq_bind, Option.bind_some]
  by_cases asked : call.pENCLOG.map text = some (literal "Y")
  · have fits := call.fits asked
    have long : readable call.message.length ≤ call.caOutBuf.length := by
      unfold readable
      omega
    have total := length_recordText call.t call.caOutBuf call.message.length
    rw [length_linesText _ _ rfl long] at total
    have encoded := @encodeLog_eq call.t (cleared 51200) call.caOutBuf call.message.length long
      (by rw [cleared, List.length_replicate]; omega)
    rw [lencodelog, if_neg (not_not.mpr asked), encoded, if_pos asked, Option.bind_eq_bind,
      Option.bind_some]
    dsimp only
    rw [List.take_left]
  · have copied := read_eq (Int.natCast_nonneg call.message.length)
      (by omega : ((0 : Nat) : Int) + call.message.length ≤ call.caOutBuf.length)
    rw [Int.toNat_natCast, List.drop_zero, call.take_message] at copied
    have written : write (cleared 51200) 0 call.message =
        some (call.message ++ (cleared 51200).drop call.message.length) := by
      rw [write, if_pos (by rw [cleared, List.length_replicate]; omega)]
      simp
    rw [lencodelog, if_pos asked, if_neg asked]
    simp only [copied, written, Option.bind_eq_bind, Option.bind_some, List.take_left]

/-- Decoding from the text since the last record on. -/
theorem decodeLoop_calls (calls : List LogCall) :
    ∀ {run : List UInt8}, 0 ∉ run → Clear run calls →
      ∃ log, logOf calls = some log ∧ ∀ (before : List UInt8) (fuel : Nat),
        (run ++ log).length < fuel →
        ∃ shown rest, shown ++ rest = before ++ run ++ calls.flatMap LogCall.message ∧
          rest.length < maxlen - 1 ∧
          decodeLoop fuel (run ++ log) [] 0 before = some (0, shown ++ 32 :: rest) := by
  induction calls with
  | nil =>
      intro run clean clear
      refine ⟨[], rfl, ?_⟩
      intro before fuel enough
      rw [List.append_nil] at enough
      obtain ⟨more, rfl⟩ := Nat.exists_eq_add_of_lt enough
      obtain ⟨buffer, written, looped, pending⟩ :=
        decodeLoop_plain clean clear [] before (more + 1)
      refine ⟨written, buffer, ?_, pending.short, ?_⟩
      · rw [pending.whole, List.flatMap_nil, List.append_nil]
      · rw [Nat.add_assoc, looped, decodeLoop, printed_end pending.clean]
  | cons call rest ih =>
      intro run clean clear
      rw [Clear] at clear
      rw [logOf, call.appended]
      split at clear
      · rename_i asked
        obtain ⟨without, nonempty, clearRest⟩ := clear
        have positive := List.length_pos_iff.mpr nonempty
        obtain ⟨log, logged, decoded⟩ := ih List.not_mem_nil clearRest
        refine ⟨_, by rw [if_pos asked, logged]; rfl, ?_⟩
        intro before fuel enough
        have fits := call.fits asked
        have size := call.size
        have long : readable call.message.length ≤ call.caOutBuf.length := by
          unfold readable
          omega
        have total := length_recordText call.t call.caOutBuf call.message.length
        rw [length_linesText _ _ rfl long] at total
        have cleanMessage : 0 ∉ call.caOutBuf.take call.message.length := by
          rw [call.take_message]
          exact call.holds.clean
        have opened := recordText_eq call.t call.caOutBuf call.message.length
        rw [List.length_append, List.length_append] at enough
        obtain ⟨spare, rfl⟩ : ∃ spare, fuel = run.length + (3 + (spare + 1)) :=
          ⟨fuel - run.length - 4, by omega⟩
        obtain ⟨buffer, written, looped, pending⟩ := decodeLoop_opening clean without
          (65 :: ((recordText call.t call.caOutBuf call.message.length).drop 4 ++ log)) before
          (spare + 1)
        have small : (recordText call.t call.caOutBuf call.message.length).length ≤ maxlen := by
          unfold maxlen
          omega
        have recorded := decodeLoop_record pending long cleanMessage positive small log spare
        rw [call.take_message] at recorded
        obtain ⟨shown, left, whole, short, others⟩ :=
          decoded (before ++ run ++ call.message) spare (by rw [List.nil_append]; omega)
        refine ⟨shown, left, ?_, short, ?_⟩
        · rw [whole, List.append_nil, List.flatMap_cons]
          simp only [List.append_assoc]
        · have arranged : run ++ (recordText call.t call.caOutBuf call.message.length ++ log) =
              run ++ (stcnEncodeHead.take 3 ++
                65 :: ((recordText call.t call.caOutBuf call.message.length).drop 4 ++ log)) := by
            conv_lhs => rw [opened]
            rw [List.append_assoc, List.cons_append]
          rw [arranged, looped, recorded]
          exact others
      · rename_i asked
        have cleanBoth : 0 ∉ run ++ call.message := by
          rw [List.mem_append, not_or]
          exact ⟨clean, call.holds.clean⟩
        obtain ⟨log, logged, decoded⟩ := ih cleanBoth clear
        refine ⟨_, by rw [if_neg asked, logged]; rfl, ?_⟩
        intro before fuel enough
        rw [← List.append_assoc] at enough ⊢
        obtain ⟨shown, left, whole, short, looped⟩ := decoded before fuel enough
        refine ⟨shown, left, ?_, short, looped⟩
        rw [whole, List.flatMap_cons]
        simp only [List.append_assoc]

/-- Whatever calls of `basBatLog` have written a log, with records or without, decoding it gives
their texts in order, with one space in front of what its buffer holds at the end. -/
theorem ldecodefd2fd_logOf {calls : List LogCall} (clear : Clear [] calls) :
    ∃ log shown rest, logOf calls = some log ∧
      shown ++ rest = calls.flatMap LogCall.message ∧ rest.length < maxlen - 1 ∧
      ldecodefd2fd log = some (0, shown ++ 32 :: rest) := by
  obtain ⟨log, logged, decoded⟩ := decodeLoop_calls calls List.not_mem_nil clear
  obtain ⟨shown, rest, whole, short, looped⟩ :=
    decoded [] (log.length + 1) (Nat.lt_succ_self _)
  exact ⟨log, shown, rest, logged, whole, short, looped⟩

/-- A call that writes a record of a word. -/
def secretCall : LogCall where
  pENCLOG := some (literal "Y" ++ [0])
  t := 1456704000
  caOutBuf := literal "secret" ++ 0 :: cleared 51193
  message := literal "secret"
  holds := holds_append (by decide) _
  size := by
    rw [List.length_append, List.length_cons, cleared, List.length_replicate]
    rfl
  fits := fun _ => by decide

/-- A call that writes a text with a part of the marker as it is. -/
def plainCall : LogCall where
  pENCLOG := none
  t := 1456704001
  caOutBuf := literal "a DZY" ++ 0 :: cleared 51194
  message := literal "a DZY"
  holds := holds_append (by decide) _
  size := by
    rw [List.length_append, List.length_cons, cleared, List.length_replicate]
    rfl
  fits := fun asked => by cases asked

theorem ldecodefd2fd_logOf_mixed :
    ∃ log shown rest, logOf [plainCall, secretCall, plainCall] = some log ∧
      shown ++ rest = [plainCall, secretCall, plainCall].flatMap LogCall.message ∧
      rest.length < maxlen - 1 ∧ ldecodefd2fd log = some (0, shown ++ 32 :: rest) :=
  ldecodefd2fd_logOf
    ⟨(by decide : ¬ stcnEncodeHead <:+: [] ++ literal "a DZY"), by decide,
      (by decide : ¬ stcnEncodeHead <:+: [] ++ literal "a DZY")⟩

end FrameCode.BasEncrypt
