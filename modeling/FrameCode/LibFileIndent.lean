import FrameCode.LibFilePasses

/-!
# Tabs and blanks at the head of a line

Mode `b` expands them and mode `c` compresses them.  An expanded line may be longer than the line
buffer: the next pass over it then takes a place inside the line for the head of another one.
-/

namespace FrameCode.LibFile

open CText LineReading

def isBlank (byte : UInt8) : Bool := byte == 9 || byte == 32

/-- The width of tabs and blanks. -/
def columns (run : List UInt8) : Nat := (run.map fun byte => if byte = 9 then 4 else 1).sum

theorem columns_cons (byte : UInt8) (run : List UInt8) :
    columns (byte :: run) = (if byte = 9 then 4 else 1) + columns run := by
  simp [columns]

/-! ## Expanding -/

section Expanding

variable {line : List UInt8}

theorem lineHeadAllTabToFourKg_blank {byte : UInt8} (blank : isBlank byte = true)
    (rest : List UInt8) :
    lineHeadAllTabToFourKg (byte :: rest) =
      List.replicate (if byte = 9 then 4 else 1) 32 ++ lineHeadAllTabToFourKg rest := by
  have isHead : ¬ (byte ≠ 9 ∧ byte ≠ 32) := by
    simp only [isBlank, Bool.or_eq_true, beq_iff_eq] at blank
    tauto
  rw [lineHeadAllTabToFourKg, if_neg isHead]
  split <;> rfl

theorem lineHeadAllTabToFourKg_other {byte : UInt8} (other : isBlank byte = false)
    (rest : List UInt8) : lineHeadAllTabToFourKg (byte :: rest) = byte :: rest := by
  rw [lineHeadAllTabToFourKg, if_pos]
  simpa [isBlank] using other

/-- The head becomes blanks, and the rest of the line stays. -/
theorem lineHeadAllTabToFourKg_eq (line : List UInt8) :
    lineHeadAllTabToFourKg line =
      List.replicate (columns (line.takeWhile isBlank)) 32 ++ line.dropWhile isBlank := by
  induction line with
  | nil => rfl
  | cons byte rest ih =>
      cases blank : isBlank byte with
      | true =>
          rw [lineHeadAllTabToFourKg_blank blank, ih, List.takeWhile_cons_of_pos blank,
            List.dropWhile_cons_of_pos blank, columns_cons, List.replicate_add, List.append_assoc]
      | false =>
          rw [lineHeadAllTabToFourKg_other blank, List.takeWhile_cons_of_neg (by simp [blank]),
            List.dropWhile_cons_of_neg (by simp [blank])]
          rfl

theorem lineHeadAllTabToFourKg_newline (line : List UInt8) :
    lineHeadAllTabToFourKg (line ++ [10]) = lineHeadAllTabToFourKg line ++ [10] := by
  induction line with
  | nil => rfl
  | cons byte rest ih =>
      cases blank : isBlank byte with
      | true =>
          rw [List.cons_append, lineHeadAllTabToFourKg_blank blank, ih,
            lineHeadAllTabToFourKg_blank blank, List.append_assoc]
      | false =>
          rw [List.cons_append, lineHeadAllTabToFourKg_other blank,
            lineHeadAllTabToFourKg_other blank, List.cons_append]

/-- Blanks in front. -/
theorem lineHeadAllTabToFourKg_replicate (width : Nat) (line : List UInt8) :
    lineHeadAllTabToFourKg (List.replicate width 32 ++ line) =
      List.replicate width 32 ++ lineHeadAllTabToFourKg line := by
  induction width with
  | zero => rfl
  | succ width ih =>
      rw [List.replicate_succ, List.cons_append, lineHeadAllTabToFourKg_blank rfl, ih]
      rfl

/-- A head without a tab stays. -/
theorem lineHeadAllTabToFourKg_self_iff (line : List UInt8) :
    lineHeadAllTabToFourKg line = line ↔ 9 ∉ line.takeWhile isBlank := by
  induction line with
  | nil => simp [lineHeadAllTabToFourKg]
  | cons byte rest ih =>
      cases blank : isBlank byte with
      | false => simp [lineHeadAllTabToFourKg_other blank, blank]
      | true =>
          rw [lineHeadAllTabToFourKg_blank blank, List.takeWhile_cons_of_pos blank,
            List.mem_cons, not_or]
          by_cases tab : byte = 9
          · simp [tab, List.replicate_succ]
          · have isKg : byte = 32 := by simpa [isBlank, tab] using blank
            simp [isKg, List.replicate_succ, ih]

theorem dropWhile_lineHeadAllTabToFourKg (line : List UInt8) :
    (lineHeadAllTabToFourKg line).dropWhile isBlank = line.dropWhile isBlank := by
  induction line with
  | nil => rfl
  | cons byte rest ih =>
      cases blank : isBlank byte with
      | true =>
          rw [lineHeadAllTabToFourKg_blank blank, List.dropWhile_append_of_pos, ih,
            List.dropWhile_cons_of_pos blank]
          intro written member
          rw [List.eq_of_mem_replicate member]
          rfl
      | false => rw [lineHeadAllTabToFourKg_other blank]

theorem mem_lineHeadAllTabToFourKg {byte : UInt8} (member : byte ∈ lineHeadAllTabToFourKg line) :
    byte = 32 ∨ byte ∈ line := by
  rw [lineHeadAllTabToFourKg_eq, List.mem_append] at member
  exact member.imp List.eq_of_mem_replicate fun inside => (List.dropWhile_sublist _).mem inside

end Expanding

/-! ## Compressing -/

section Compressing

variable {line result : List UInt8}

/-- Tabs and groups of four blanks become tabs, up to the first place with neither. -/
inductive Compresses : List UInt8 → List UInt8 → Prop
  | tab {line result : List UInt8} (rest : Compresses line result) :
      Compresses (9 :: line) (9 :: result)
  | four {line result : List UInt8} (rest : Compresses line result) :
      Compresses (32 :: 32 :: 32 :: 32 :: line) (9 :: result)
  | stop {line : List UInt8} (noTab : line.head? ≠ some 9)
      (noFour : ¬ [32, 32, 32, 32] <+: line) : Compresses line line

namespace Compresses

theorem unique {other : List UInt8} (compresses : Compresses line result)
    (compresses' : Compresses line other) : result = other := by
  induction compresses generalizing other with
  | tab _ ih =>
      cases compresses' with
      | tab rest => rw [ih rest]
      | stop noTab _ => exact absurd rfl noTab
  | four _ ih =>
      cases compresses' with
      | four rest => rw [ih rest]
      | stop _ noFour => exact absurd ⟨_, rfl⟩ noFour
  | stop noTab noFour =>
      cases compresses' with
      | tab => exact absurd rfl noTab
      | four => exact absurd ⟨_, rfl⟩ noFour
      | stop => rfl

/-- Fewer than four bytes have no group of blanks. -/
theorem short (few : line.length < 4) : Compresses line line := by
  induction line with
  | nil => exact .stop (by simp) (by simp)
  | cons byte rest ih =>
      by_cases tab : byte = 9
      · rw [tab]
        exact .tab (ih (Nat.lt_of_succ_lt few))
      · refine .stop (by simpa using tab) ?_
        intro four
        have long := four.length_le
        simp at long few
        omega

theorem newline (compresses : Compresses line result) :
    Compresses (line ++ [10]) (result ++ [10]) := by
  induction compresses with
  | tab _ ih => exact .tab ih
  | four _ ih => exact .four ih
  | @stop line noTab noFour =>
      refine .stop ?_ ?_
      · cases line with
        | nil => simp
        | cons byte rest => simpa using noTab
      · rw [List.prefix_concat_iff, not_or]
        refine ⟨?_, noFour⟩
        intro same
        have last := congrArg List.getLast? same
        simp at last

/-- Expanding what is compressed. -/
theorem expand_eq (compresses : Compresses line result) :
    lineHeadAllTabToFourKg result = lineHeadAllTabToFourKg line := by
  induction compresses with
  | tab _ ih => rw [lineHeadAllTabToFourKg_blank rfl, lineHeadAllTabToFourKg_blank rfl, ih]
  | four _ ih =>
      rw [lineHeadAllTabToFourKg_blank rfl, ih]
      exact (lineHeadAllTabToFourKg_replicate 4 _).symm
  | stop => rfl

theorem again (compresses : Compresses line result) : Compresses result result := by
  induction compresses with
  | tab _ ih => exact .tab ih
  | four _ ih => exact .tab ih
  | stop noTab noFour => exact .stop noTab noFour

theorem dropWhile_eq (compresses : Compresses line result) :
    result.dropWhile isBlank = line.dropWhile isBlank := by
  rw [← dropWhile_lineHeadAllTabToFourKg, compresses.expand_eq, dropWhile_lineHeadAllTabToFourKg]

theorem length_le (compresses : Compresses line result) : result.length ≤ line.length := by
  induction compresses with
  | tab _ ih => simpa using ih
  | four _ ih =>
      simp only [List.length_cons]
      omega
  | stop => exact le_rfl

theorem mem {byte : UInt8} (compresses : Compresses line result) (member : byte ∈ result) :
    byte = 9 ∨ byte ∈ line := by
  induction compresses with
  | tab _ ih =>
      rcases List.mem_cons.mp member with rfl | later
      · exact Or.inl rfl
      · exact (ih later).imp_right (List.mem_cons_of_mem _)
  | four _ ih =>
      rcases List.mem_cons.mp member with rfl | later
      · exact Or.inl rfl
      · exact (ih later).imp_right fun inside => by simp [inside]
  | stop => exact Or.inr member

end Compresses

theorem compresses_lineHeadAllFourKgToTab {fuel : Nat} (enough : line.length ≤ fuel) :
    Compresses line (lineHeadAllFourKgToTab fuel line) := by
  induction fuel generalizing line with
  | zero =>
      obtain rfl := List.eq_nil_of_length_eq_zero (Nat.le_zero.mp enough)
      exact .stop (by simp) (by simp)
  | succ fuel ih =>
      rw [lineHeadAllFourKgToTab]
      split
      · exact .short ‹_›
      split
      · rename_i neither
        refine .stop neither.1 ?_
        rintro ⟨rest, rfl⟩
        exact neither.2 rfl
      split
      · rename_i four
        obtain ⟨rest, rfl⟩ : ∃ rest, line = 32 :: 32 :: 32 :: 32 :: rest :=
          ⟨line.drop 4, by rw [← List.take_append_drop 4 line, four]; simp⟩
        refine .four (ih ?_)
        simp only [List.length_cons] at enough
        omega
      · rename_i neither notFour
        obtain ⟨rest, rfl⟩ : ∃ rest, line = 9 :: rest := by
          rw [not_and_or, not_not, not_not] at neither
          exact List.head?_eq_some_iff.mp (neither.resolve_right notFour)
        exact .tab (ih (Nat.le_of_succ_le_succ enough))

end Compressing

/-! ## The passes -/

section Passes

variable {lineMax : Nat} {before before' : Nat → UInt8} {content : List UInt8}

/-- What a pass makes of the bytes of a line, which it reads in pieces. -/
def overPieces (limit : Nat) (f : List UInt8 → List UInt8) (line : List UInt8) : List UInt8 :=
  (pieces 10 limit line).flatMap f

theorem overPieces_short {limit : Nat} {f : List UInt8 → List UInt8} (f_nil : f [] = [])
    {line : List UInt8} (single : 10 ∉ line) (short : line.length ≤ limit) :
    overPieces limit f line = f line := by
  rw [overPieces, pieces_short single short]
  by_cases nothing : line = []
  · simp [nothing, f_nil]
  · simp [nothing]

theorem overPieces_long {limit : Nat} (positive : 0 < limit) (f : List UInt8 → List UInt8)
    {line : List UInt8} (single : 10 ∉ line) (long : limit ≤ line.length) :
    overPieces limit f line = f (line.take limit) ++ overPieces limit f (line.drop limit) := by
  have cut := pieces_cut positive single long []
  rw [List.append_nil, List.append_nil] at cut
  rw [overPieces, cut, List.flatMap_cons, overPieces]

/-- The lines of a file without their heads. -/
def withoutHeads (content : List UInt8) : List (List UInt8) × List UInt8 :=
  ((splitLines 10 content).1.map (List.dropWhile isBlank),
    (splitLines 10 content).2.dropWhile isBlank)

/-- A pass that changes heads of lines into other blanks. -/
structure HeadPass (before : Nat → UInt8) (flag : Flag) (f : List UInt8 → List UInt8) : Prop where
  byLines : flag ≠ .multipleHhToTwoHh
  writes : ∀ indent line, lineOutput before flag indent line = some (indent, f line)
  nil : f [] = []
  newline : ∀ line, f (line ++ [10]) = f line ++ [10]
  blanks : ∀ line, ∀ byte ∈ f line, byte = 9 ∨ byte = 32 ∨ byte ∈ line
  heads : ∀ line, (f line).dropWhile isBlank = line.dropWhile isBlank

theorem expandPass (before : Nat → UInt8) :
    HeadPass before .lineHeadAllTabToFourKg lineHeadAllTabToFourKg where
  byLines := by decide
  writes _ _ := rfl
  nil := rfl
  newline := lineHeadAllTabToFourKg_newline
  blanks _ _ member := Or.inr (mem_lineHeadAllTabToFourKg member)
  heads := dropWhile_lineHeadAllTabToFourKg

/-- The line that mode `c` writes. -/
def headToTabs (line : List UInt8) : List UInt8 := lineHeadAllFourKgToTab line.length line

theorem compresses_headToTabs (line : List UInt8) : Compresses line (headToTabs line) :=
  compresses_lineHeadAllFourKgToTab le_rfl

theorem compressPass (before : Nat → UInt8) :
    HeadPass before .lineHeadAllFourKgToTab headToTabs where
  byLines := by decide
  writes _ _ := rfl
  nil := rfl
  newline line := (compresses_headToTabs _).unique (compresses_headToTabs line).newline
  blanks line _ member := ((compresses_headToTabs line).mem member).imp_right Or.inr
  heads line := (compresses_headToTabs line).dropWhile_eq

namespace HeadPass

variable {flag flag' : Flag} {f f' : List UInt8 → List UInt8} {lines : List (List UInt8)}
variable {line last : List UInt8} {byte : UInt8} {limit : Nat}

theorem notMem (pass : HeadPass before flag f) (solid : isBlank byte = false)
    (absent : byte ∉ line) : byte ∉ f line := by
  intro member
  rcases pass.blanks line byte member with rfl | rfl | inside
  · cases solid
  · cases solid
  · exact absent inside

theorem notMem_map (pass : HeadPass before flag f) (solid : isBlank byte = false)
    (absent : ∀ line ∈ lines, byte ∉ line) : ∀ line ∈ lines.map f, byte ∉ line := by
  rw [List.forall_mem_map]
  exact fun line member => pass.notMem solid (absent line member)

theorem notMem_overPieces (pass : HeadPass before flag f) (positive : 0 < limit)
    (solid : isBlank byte = false) (absent : byte ∉ line) : byte ∉ overPieces limit f line := by
  rw [overPieces, List.mem_flatMap]
  rintro ⟨piece, read, member⟩
  refine pass.notMem solid ?_ member
  intro inside
  exact absent ((of_mem_pieces positive read).2 byte inside)

/-- The file after the pass. -/
theorem process_eq (pass : HeadPass before flag f) (wide : 1 < lineMax)
    (noNul : 0 ∉ joinLines 10 lines last) (single : ∀ line ∈ lines, 10 ∉ line) :
    process lineMax before flag (joinLines 10 lines last) =
      some (joinLines 10 (lines.map (overPieces (lineMax - 1) f))
        (overPieces (lineMax - 1) f last)) := by
  rw [LibFile.process_eq wide noNul pass.byLines fun indent line _ => pass.writes indent line,
    flatMap_pieces_joinLines (by omega) pass.nil (fun line _ => pass.newline line) single,
    joinLines, List.flatMap_map]
  rfl

theorem noNul (pass : HeadPass before flag f) (absent : 0 ∉ joinLines 10 lines last) :
    0 ∉ joinLines 10 (lines.map f) (f last) := by
  rw [notMem_joinLines (by decide)] at absent ⊢
  exact ⟨pass.notMem_map rfl absent.1, pass.notMem rfl absent.2⟩

/-- The file has lines that fit into the buffer, up to their newlines. -/
structure Fits (limit : Nat) (lines : List (List UInt8)) (last : List UInt8) : Prop where
  noNul : 0 ∉ joinLines 10 lines last
  single : ∀ line ∈ lines, 10 ∉ line
  lastSingle : 10 ∉ last
  short : ∀ line ∈ lines, line.length ≤ limit
  lastShort : last.length ≤ limit

variable (pass : HeadPass before flag f) (pass' : HeadPass before' flag' f') (wide : 1 < lineMax)
variable (fits : Fits (lineMax - 1) lines last)
include pass wide fits

/-- Each line is read as a whole. -/
theorem process_short :
    process lineMax before flag (joinLines 10 lines last) =
      some (joinLines 10 (lines.map f) (f last)) := by
  rw [pass.process_eq wide fits.noNul fits.single,
    overPieces_short pass.nil fits.lastSingle fits.lastShort]
  congr 2
  apply List.map_congr_left
  intro line member
  exact overPieces_short pass.nil (fits.single line member) (fits.short line member)

include pass' in
/-- One pass after the other. -/
theorem process_twice :
    (process lineMax before flag (joinLines 10 lines last)).bind (process lineMax before' flag') =
      some (joinLines 10 (lines.map fun line => overPieces (lineMax - 1) f' (f line))
        (overPieces (lineMax - 1) f' (f last))) := by
  rw [pass.process_short wide fits, Option.bind_some, pass'.process_eq wide (pass.noNul fits.noNul)
    (pass.notMem_map rfl fits.single), List.map_map]
  rfl

/-- Only heads of lines change. -/
theorem process_heads :
    (process lineMax before flag (joinLines 10 lines last)).map withoutHeads =
      some (withoutHeads (joinLines 10 lines last)) := by
  rw [pass.process_short wide fits, Option.map_some, withoutHeads, withoutHeads,
    splitLines_joinLines fits.single fits.lastSingle,
    splitLines_joinLines (pass.notMem_map rfl fits.single) (pass.notMem rfl fits.lastSingle)]
  simp [pass.heads, Function.comp_def]

end HeadPass

end Passes

/-! ## Expanding twice -/

section Twice

variable {tail : List UInt8}

theorem lineHeadAllTabToFourKg_take (solid : ∀ byte ∈ tail.head?, isBlank byte = false) (n : Nat) :
    lineHeadAllTabToFourKg (tail.take n) = tail.take n := by
  cases tail with
  | nil => rw [List.take_nil]; rfl
  | cons byte rest =>
      cases n with
      | zero => rfl
      | succ n => exact lineHeadAllTabToFourKg_other (solid byte rfl) _

/-- The second pass over an expanded line: the piece that starts behind the head has a head of its
own. -/
theorem overPieces_expanded {limit : Nat} (positive : 0 < limit) (single : 10 ∉ tail)
    (short : tail.length ≤ limit) (solid : ∀ byte ∈ tail.head?, isBlank byte = false)
    (width : Nat) :
    overPieces limit lineHeadAllTabToFourKg (List.replicate width 32 ++ tail) =
      List.replicate width 32 ++ (tail.take ((limit - width % limit) % limit) ++
        lineHeadAllTabToFourKg (tail.drop ((limit - width % limit) % limit))) := by
  have whole : lineHeadAllTabToFourKg tail = tail := by
    simpa using lineHeadAllTabToFourKg_take solid tail.length
  have singleAll (width : Nat) : 10 ∉ List.replicate width 32 ++ tail := by simpa using single
  induction width using Nat.strongRecOn with
  | _ width ih =>
      rcases Nat.lt_or_ge width limit with less | full
      · rw [Nat.mod_eq_of_lt less]
        by_cases fits : width + tail.length ≤ limit
        · rw [overPieces_short rfl (singleAll width) (by simpa using fits),
            lineHeadAllTabToFourKg_replicate, whole]
          rcases Nat.eq_zero_or_pos width with rfl | some
          · simp [whole]
          · have behind : tail.length ≤ (limit - width) % limit := by
              rw [Nat.mod_eq_of_lt (by omega)]
              omega
            rw [List.take_of_length_le behind, List.drop_of_length_le behind]
            simp [lineHeadAllTabToFourKg]
        · have place : (limit - width) % limit = limit - width := Nat.mod_eq_of_lt (by omega)
          have long : limit ≤ (List.replicate width (32 : UInt8) ++ tail).length := by
            rw [List.length_append, List.length_replicate]
            omega
          have taken : (List.replicate width (32 : UInt8) ++ tail).take limit =
              List.replicate width 32 ++ tail.take (limit - width) := by
            rw [List.take_append, List.length_replicate, List.take_of_length_le]
            rw [List.length_replicate]
            exact less.le
          have dropped : (List.replicate width (32 : UInt8) ++ tail).drop limit =
              tail.drop (limit - width) := by
            rw [List.drop_append, List.length_replicate, List.drop_of_length_le, List.nil_append]
            rw [List.length_replicate]
            exact less.le
          rw [place, overPieces_long positive _ (singleAll width) long, taken, dropped,
            lineHeadAllTabToFourKg_replicate, lineHeadAllTabToFourKg_take solid,
            overPieces_short rfl, List.append_assoc]
          · exact fun found => single (List.mem_of_mem_drop found)
          · rw [List.length_drop]
            omega
      · obtain ⟨more, rfl⟩ := Nat.exists_eq_add_of_le full
        have split : List.replicate (limit + more) (32 : UInt8) ++ tail =
            List.replicate limit 32 ++ (List.replicate more 32 ++ tail) := by
          rw [List.replicate_add, List.append_assoc]
        have long : limit ≤ (List.replicate (limit + more) (32 : UInt8) ++ tail).length := by
          rw [List.length_append, List.length_replicate]
          omega
        rw [overPieces_long positive _ (singleAll _) long, split,
          List.take_left' List.length_replicate, List.drop_left' List.length_replicate,
          ih more (by omega), Nat.add_mod_left, List.replicate_add]
        have plain := lineHeadAllTabToFourKg_replicate limit []
        rw [List.append_nil] at plain
        rw [plain, lineHeadAllTabToFourKg, List.append_nil, List.append_assoc]

/-- No tab stands among the blanks where the expanded line is cut behind its head: the expanded head
is `columns` bytes wide, and the buffer is full after each `limit` bytes. -/
def Settled (limit : Nat) (line : List UInt8) : Prop :=
  9 ∉ ((line.dropWhile isBlank).drop
    ((limit - columns (line.takeWhile isBlank) % limit) % limit)).takeWhile isBlank

instance (limit : Nat) (line : List UInt8) : Decidable (Settled limit line) :=
  inferInstanceAs (Decidable (¬ _))

theorem overPieces_expanded_iff {limit : Nat} {line : List UInt8} (positive : 0 < limit)
    (single : 10 ∉ line) (short : line.length ≤ limit) :
    overPieces limit lineHeadAllTabToFourKg (lineHeadAllTabToFourKg line) =
      lineHeadAllTabToFourKg line ↔ Settled limit line := by
  have sublist : (line.dropWhile isBlank).Sublist line := List.dropWhile_sublist _
  have solid : ∀ byte ∈ (line.dropWhile isBlank).head?, isBlank byte = false := by
    intro byte member
    have notBlank := List.head?_dropWhile_not isBlank line
    rw [Option.mem_def.mp member] at notBlank
    exact notBlank
  rw [lineHeadAllTabToFourKg_eq line, overPieces_expanded positive
    (fun found => single (sublist.mem found)) (sublist.length_le.trans short) solid,
    List.append_cancel_left_eq, Settled, ← lineHeadAllTabToFourKg_self_iff]
  generalize (limit - columns (line.takeWhile isBlank) % limit) % limit = place
  constructor
  · intro same
    rw [← List.append_cancel_left_eq, same, List.take_append_drop]
  · intro same
    rw [same, List.take_append_drop]

end Twice

/-! ## Both passes -/

/-- Expanding undoes compressing, doing either of them twice adds nothing, and both change the heads
of lines only. -/
structure PassesIndentConsistently (lineMax : Nat) (before before' : Nat → UInt8)
    (content : List UInt8) : Prop where
  expandCompressed : (process lineMax before .lineHeadAllFourKgToTab content).bind
      (process lineMax before' .lineHeadAllTabToFourKg) =
    process lineMax before .lineHeadAllTabToFourKg content
  expandTwice : (process lineMax before .lineHeadAllTabToFourKg content).bind
      (process lineMax before' .lineHeadAllTabToFourKg) =
    process lineMax before .lineHeadAllTabToFourKg content
  compressTwice : (process lineMax before .lineHeadAllFourKgToTab content).bind
      (process lineMax before' .lineHeadAllFourKgToTab) =
    process lineMax before .lineHeadAllFourKgToTab content
  expandHeads : (process lineMax before .lineHeadAllTabToFourKg content).map withoutHeads =
    some (withoutHeads content)
  compressHeads : (process lineMax before .lineHeadAllFourKgToTab content).map withoutHeads =
    some (withoutHeads content)

section Consistency

variable {lineMax : Nat} {before before' : Nat → UInt8} {lines : List (List UInt8)}
variable {last : List UInt8}

/-- A pass that makes the same of compressed lines does so after compressing. -/
theorem process_compressed {flag : Flag} {f : List UInt8 → List UInt8}
    (pass : ∀ before, HeadPass before flag f) (same : ∀ line, f (headToTabs line) = f line)
    (wide : 1 < lineMax) (fits : HeadPass.Fits (lineMax - 1) lines last) :
    (process lineMax before .lineHeadAllFourKgToTab (joinLines 10 lines last)).bind
        (process lineMax before' flag) =
      process lineMax before flag (joinLines 10 lines last) := by
  have nil := (pass before).nil
  have again (line : List UInt8) (single : 10 ∉ line) (short : line.length ≤ lineMax - 1) :
      overPieces (lineMax - 1) f (headToTabs line) = f line := by
    rw [overPieces_short nil ((compressPass before).notMem rfl single)
      ((compresses_headToTabs line).length_le.trans short), same]
  rw [(compressPass before).process_twice (pass before') wide fits,
    (pass before).process_short wide fits, again last fits.lastSingle fits.lastShort]
  congr 2
  apply List.map_congr_left
  exact fun line member => again line (fits.single line member) (fits.short line member)

theorem headToTabs_headToTabs (line : List UInt8) :
    headToTabs (headToTabs line) = headToTabs line :=
  (compresses_headToTabs _).unique (compresses_headToTabs line).again

/-- Expanding twice adds nothing exactly when no line is cut at a tab. -/
theorem expandTwice_iff (before before' : Nat → UInt8) (wide : 1 < lineMax)
    (fits : HeadPass.Fits (lineMax - 1) lines last) :
    (process lineMax before .lineHeadAllTabToFourKg (joinLines 10 lines last)).bind
        (process lineMax before' .lineHeadAllTabToFourKg) =
      process lineMax before .lineHeadAllTabToFourKg (joinLines 10 lines last) ↔
    (∀ line ∈ lines, Settled (lineMax - 1) line) ∧ Settled (lineMax - 1) last := by
  have pass := expandPass before
  have settles (line : List UInt8) (single : 10 ∉ line) (short : line.length ≤ lineMax - 1) :=
    overPieces_expanded_iff (Nat.sub_pos_of_lt wide) single short
  have singleTwice (line : List UInt8) (single : 10 ∉ line) :
      10 ∉ overPieces (lineMax - 1) lineHeadAllTabToFourKg (lineHeadAllTabToFourKg line) :=
    pass.notMem_overPieces (by omega) rfl (pass.notMem rfl single)
  rw [pass.process_twice (expandPass before') wide fits, pass.process_short wide fits,
    Option.some.injEq]
  constructor
  · intro same
    have split := congrArg (splitLines 10) same
    rw [splitLines_joinLines _ (singleTwice last fits.lastSingle),
      splitLines_joinLines (pass.notMem_map rfl fits.single) (pass.notMem rfl fits.lastSingle),
      Prod.mk.injEq] at split
    · refine ⟨?_, (settles last fits.lastSingle fits.lastShort).mp split.2⟩
      intro line member
      exact (settles line (fits.single line member) (fits.short line member)).mp
        (List.map_inj_left.mp split.1 line member)
    · rw [List.forall_mem_map]
      exact fun line member => singleTwice line (fits.single line member)
  · rintro ⟨settled, lastSettled⟩
    rw [(settles last fits.lastSingle fits.lastShort).mpr lastSettled]
    congr 1
    apply List.map_congr_left
    exact fun line member => (settles line (fits.single line member) (fits.short line member)).mpr
      (settled line member)

/-- The passes are consistent exactly when no expanded line is cut at a tab. -/
theorem passesIndentConsistently_iff (wide : 1 < lineMax)
    (fits : HeadPass.Fits (lineMax - 1) lines last) :
    PassesIndentConsistently lineMax before before' (joinLines 10 lines last) ↔
      (∀ line ∈ lines, Settled (lineMax - 1) line) ∧ Settled (lineMax - 1) last := by
  rw [← expandTwice_iff before before' wide fits]
  constructor
  · intro consistent
    exact consistent.expandTwice
  · intro twice
    have expands (line : List UInt8) := (compresses_headToTabs line).expand_eq
    exact ⟨process_compressed expandPass expands wide fits, twice,
      process_compressed compressPass headToTabs_headToTabs wide fits,
      (expandPass before).process_heads wide fits, (compressPass before).process_heads wide fits⟩

theorem lineHeadAllTabToFourKg_eq_nil {line : List UInt8}
    (nothing : lineHeadAllTabToFourKg line = []) : line = [] := by
  rw [lineHeadAllTabToFourKg_eq, List.append_eq_nil_iff, List.replicate_eq_nil_iff] at nothing
  cases line with
  | nil => rfl
  | cons byte rest =>
      cases blank : isBlank byte with
      | false => simp [blank] at nothing
      | true =>
          rw [List.takeWhile_cons_of_pos blank, columns_cons] at nothing
          split at nothing <;> omega

/-- Only the empty file is expanded to nothing. -/
theorem joinLines_eq_nil_of_expanded (wide : 1 < lineMax)
    (fits : HeadPass.Fits (lineMax - 1) lines last)
    (nothing : process lineMax before .lineHeadAllTabToFourKg (joinLines 10 lines last) =
      some []) :
    joinLines 10 lines last = [] := by
  rw [(expandPass before).process_short wide fits, Option.some.injEq, joinLines,
    List.append_eq_nil_iff] at nothing
  obtain ⟨noLines, noLast⟩ := nothing
  cases lines with
  | nil => exact lineHeadAllTabToFourKg_eq_nil noLast
  | cons line rest => simp at noLines

/-- A file without anything but a head. -/
theorem withoutHeads_eq_nil_iff (content : List UInt8) :
    withoutHeads content = withoutHeads [] ↔ ∀ byte ∈ content, isBlank byte = true := by
  constructor
  · intro same
    obtain ⟨noLines, noLast⟩ := Prod.mk.inj same
    have content_eq := joinLines_splitLines 10 content
    rw [List.map_eq_nil_iff.mp noLines] at content_eq
    rw [← content_eq]
    exact List.dropWhile_eq_nil_iff.mp noLast
  · intro blank
    have single : 10 ∉ content := fun member => absurd (blank 10 member) (by decide)
    have split : splitLines 10 content = ([], content) := by
      simpa [joinLines] using @splitLines_joinLines UInt8 _ 10 [] content (by simp) single
    rw [withoutHeads, split, List.dropWhile_eq_nil_iff.mpr blank]
    rfl

end Consistency

/-- A call in mode `b` after one in mode `c` leaves what mode `b` alone leaves, a second call in
either mode adds nothing, and both modes change the heads of lines only. -/
structure IndentsConsistently (lineMax : Nat) (before before' : Nat → UInt8) (files : Files)
    (inFile outFile nextFile content : List UInt8) : Prop where
  expandCompressed : outputTwice lineMax before before' files inFile outFile nextFile
      .lineHeadAllFourKgToTab .lineHeadAllTabToFourKg =
    output lineMax before files inFile outFile .lineHeadAllTabToFourKg
  expandTwice : outputTwice lineMax before before' files inFile outFile nextFile
      .lineHeadAllTabToFourKg .lineHeadAllTabToFourKg =
    output lineMax before files inFile outFile .lineHeadAllTabToFourKg
  compressTwice : outputTwice lineMax before before' files inFile outFile nextFile
      .lineHeadAllFourKgToTab .lineHeadAllFourKgToTab =
    output lineMax before files inFile outFile .lineHeadAllFourKgToTab
  expandHeads : (output lineMax before files inFile outFile .lineHeadAllTabToFourKg).map
    withoutHeads = some (withoutHeads content)
  compressHeads : (output lineMax before files inFile outFile .lineHeadAllFourKgToTab).map
    withoutHeads = some (withoutHeads content)

section IndentingCalls

variable {lineMax : Nat} {before before' : Nat → UInt8} {files : Files}
variable {inFile outFile nextFile content : List UInt8}

/-- Calls into other files do what the passes do. -/
theorem indentsConsistently_of_apart (found : files inFile = some content)
    (apart : outputName inFile outFile ≠ inFile)
    (nextApart : outputName (outputName inFile outFile) nextFile ≠ outputName inFile outFile) :
    IndentsConsistently lineMax before before' files inFile outFile nextFile content ↔
      PassesIndentConsistently lineMax before before' content := by
  have first (flag : Flag) (single : flag.Single) :=
    @output_eq lineMax before files inFile outFile content flag single found
  have second (flag flag' : Flag) (single : flag.Single) (single' : flag'.Single) :=
    @outputTwice_eq lineMax before before' files inFile outFile nextFile content flag flag' single
      single' found
  simp only [if_neg apart, if_neg nextApart] at first second
  constructor
  · rintro ⟨expandCompressed, expandTwice, compressTwice, expandHeads, compressHeads⟩
    rw [second _ _ (by decide) (by decide), first _ (by decide)] at expandCompressed
    rw [second _ _ (by decide) (by decide), first _ (by decide)] at expandTwice
    rw [second _ _ (by decide) (by decide), first _ (by decide)] at compressTwice
    rw [first _ (by decide)] at expandHeads compressHeads
    exact ⟨expandCompressed, expandTwice, compressTwice, expandHeads, compressHeads⟩
  · rintro ⟨expandCompressed, expandTwice, compressTwice, expandHeads, compressHeads⟩
    rw [← second _ _ (by decide) (by decide), ← first _ (by decide)] at expandCompressed
    rw [← second _ _ (by decide) (by decide), ← first _ (by decide)] at expandTwice
    rw [← second _ _ (by decide) (by decide), ← first _ (by decide)] at compressTwice
    rw [← first _ (by decide)] at expandHeads compressHeads
    exact ⟨expandCompressed, expandTwice, compressTwice, expandHeads, compressHeads⟩

/-- A call whose output file is its input file leaves nothing, which is right for a file of tabs
and blanks. -/
theorem indentsConsistently_of_same (found : files inFile = some content)
    (same : outputName inFile outFile = inFile) :
    IndentsConsistently lineMax before before' files inFile outFile nextFile content ↔
      ∀ byte ∈ content, isBlank byte = true := by
  have first (flag : Flag) (single : flag.Single) :=
    @output_eq lineMax before files inFile outFile content flag single found
  have second (flag flag' : Flag) (single : flag.Single) (single' : flag'.Single) :=
    @outputTwice_eq lineMax before before' files inFile outFile nextFile content flag flag' single
      single' found
  simp only [if_pos same, process_nil, Option.bind_some, ite_self] at first second
  rw [← withoutHeads_eq_nil_iff]
  constructor
  · intro consistent
    have heads := consistent.expandHeads
    rw [first _ (by decide), Option.map_some, Option.some.injEq] at heads
    exact heads.symm
  · intro heads
    have kept (flag : Flag) (single : flag.Single) :
        (output lineMax before files inFile outFile flag).map withoutHeads =
          some (withoutHeads content) := by
      rw [first flag single, Option.map_some, heads]
    have again (flag flag' flag'' : Flag) (single : flag.Single) (single' : flag'.Single)
        (single'' : flag''.Single) :
        outputTwice lineMax before before' files inFile outFile nextFile flag flag' =
          output lineMax before files inFile outFile flag'' :=
      (second flag flag' single single').trans (first flag'' single'').symm
    exact ⟨again _ _ _ (by decide) (by decide) (by decide),
      again _ _ _ (by decide) (by decide) (by decide),
      again _ _ _ (by decide) (by decide) (by decide), kept _ (by decide), kept _ (by decide)⟩

/-- A second call whose output file is its input file leaves nothing. -/
theorem empty_of_expandTwice (found : files inFile = some content)
    (apart : outputName inFile outFile ≠ inFile)
    (nextSame : outputName (outputName inFile outFile) nextFile = outputName inFile outFile)
    (empty : process lineMax before .lineHeadAllTabToFourKg content = some [] → content = [])
    (consistent :
      IndentsConsistently lineMax before before' files inFile outFile nextFile content) :
    content = [] := by
  have twice := consistent.expandTwice
  rw [outputTwice_eq (by decide) (by decide) found, output_eq (by decide) found, if_neg apart]
    at twice
  simp only [if_pos nextSame, process_nil] at twice
  cases made : process lineMax before .lineHeadAllTabToFourKg content with
  | none =>
      have heads := consistent.expandHeads
      rw [output_eq (by decide) found, if_neg apart, made] at heads
      cases heads
  | some middle =>
      rw [made, Option.bind_some] at twice
      exact empty (made.trans twice.symm)

theorem indentsConsistently_nil (found : files inFile = some []) :
    IndentsConsistently lineMax before before' files inFile outFile nextFile [] := by
  have first (flag : Flag) (single : flag.Single) :=
    @output_eq lineMax before files inFile outFile [] flag single found
  have second (flag flag' : Flag) (single : flag.Single) (single' : flag'.Single) :=
    @outputTwice_eq lineMax before before' files inFile outFile nextFile [] flag flag' single
      single' found
  simp only [process_nil, Option.bind_some, ite_self] at first second
  constructor
  case expandHeads => rw [first _ (by decide), Option.map_some]
  case compressHeads => rw [first _ (by decide), Option.map_some]
  all_goals rw [second _ _ (by decide) (by decide), first _ (by decide)]

end IndentingCalls

/-- The calls are consistent exactly when neither output file is the input file of its call and no
expanded line is cut at a tab, or when the file is empty, or when the first call empties a file of
tabs and blanks. -/
theorem indentsConsistently_iff {lineMax : Nat} {before before' : Nat → UInt8} {files : Files}
    {inFile outFile nextFile content : List UInt8} (found : files inFile = some content)
    (wide : 1 < lineMax) (noNul : 0 ∉ content)
    (short : ∀ line ∈ (splitLines 10 content).1, line.length < lineMax)
    (lastShort : (splitLines 10 content).2.length < lineMax) :
    IndentsConsistently lineMax before before' files inFile outFile nextFile content ↔
      content = [] ∨
        (outputName inFile outFile = inFile ∧ ∀ byte ∈ content, isBlank byte = true) ∨
        (outputName inFile outFile ≠ inFile ∧
          outputName (outputName inFile outFile) nextFile ≠ outputName inFile outFile ∧
          (∀ line ∈ (splitLines 10 content).1, Settled (lineMax - 1) line) ∧
            Settled (lineMax - 1) (splitLines 10 content).2) := by
  obtain ⟨single, lastSingle⟩ := stop_notMem_splitLines 10 content
  have content_eq := joinLines_splitLines 10 content
  generalize (splitLines 10 content).1 = lines at *
  generalize (splitLines 10 content).2 = last at *
  have fits : HeadPass.Fits (lineMax - 1) lines last :=
    ⟨content_eq ▸ noNul, single, lastSingle,
      fun line member => Nat.le_pred_of_lt (short line member), Nat.le_pred_of_lt lastShort⟩
  have passes := @passesIndentConsistently_iff lineMax before before' lines last wide fits
  rw [content_eq] at passes
  by_cases same : outputName inFile outFile = inFile
  · rw [indentsConsistently_of_same found same]
    constructor
    · exact fun blank => Or.inr (Or.inl ⟨same, blank⟩)
    · rintro (rfl | ⟨-, blank⟩ | ⟨apart, -⟩)
      · simp
      · exact blank
      · exact absurd same apart
  by_cases nextSame : outputName (outputName inFile outFile) nextFile = outputName inFile outFile
  · have empties := @empty_of_expandTwice lineMax before before' files inFile outFile nextFile
      content found same nextSame (content_eq ▸ joinLines_eq_nil_of_expanded wide fits)
    constructor
    · exact fun consistent => Or.inl (empties consistent)
    · rintro (rfl | ⟨inPlace, -⟩ | ⟨-, nextApart, -⟩)
      · exact indentsConsistently_nil found
      · exact absurd inPlace same
      · exact absurd nextSame nextApart
  · rw [indentsConsistently_of_apart found same nextSame, passes]
    constructor
    · exact fun settled => Or.inr (Or.inr ⟨same, nextSame, settled⟩)
    · rintro (rfl | ⟨inPlace, -⟩ | ⟨-, -, settled⟩)
      · rw [← passes]
        exact (indentsConsistently_of_apart found same nextSame).mp (indentsConsistently_nil found)
      · exact absurd inPlace same
      · exact settled

/-- The file `"\t  x\ty\n"`. -/
theorem indentsConsistently_line :
    IndentsConsistently 40960 (fun _ => 0) (fun _ => 0)
      (Function.update (fun _ => none) [105] (some [9, 32, 32, 120, 9, 121, 10])) [105] [111] []
      [9, 32, 32, 120, 9, 121, 10] := by
  rw [indentsConsistently_iff (by rfl) (by decide) (by decide)]
  · refine Or.inr (Or.inr ⟨by decide, by decide, by decide, by decide⟩)
  all_goals decide

/-- Tabs, `"aaa"`, a tab and `"b"`: the expanded tabs and `"aaa"` may fill the buffer. -/
def cutLine (tabs : Nat) : List UInt8 := List.replicate tabs 9 ++ [97, 97, 97, 9, 98]

theorem not_settled_cutLine {tabs : Nat} (some : 0 < tabs) :
    ¬ Settled (4 * tabs + 3) (cutLine tabs) := by
  have blank : ∀ byte ∈ List.replicate tabs (9 : UInt8), isBlank byte = true := by
    intro byte member
    rw [List.eq_of_mem_replicate member]
    rfl
  have width : columns (List.replicate tabs 9) = 4 * tabs := by simp [columns, Nat.mul_comm]
  have place : (4 * tabs + 3 - 4 * tabs % (4 * tabs + 3)) % (4 * tabs + 3) = 3 := by
    rw [Nat.mod_eq_of_lt (by omega : 4 * tabs < 4 * tabs + 3), Nat.add_sub_cancel_left,
      Nat.mod_eq_of_lt (by omega)]
  rw [Settled, cutLine, List.takeWhile_append_of_pos blank, List.dropWhile_append_of_pos blank,
    show List.takeWhile isBlank [97, 97, 97, 9, 98] = [] from rfl, List.append_nil, width, place]
  decide

/-- Lines that fill the buffer in this way are never expanded twice to the same. -/
theorem not_indentsConsistently_tabs {tabs : Nat} (some : 1 < tabs) {before before' : Nat → UInt8}
    {files : Files} {inFile outFile nextFile : List UInt8}
    (found : files inFile = Option.some (cutLine tabs)) (apart : outputName inFile outFile ≠ inFile)
    (nextApart : outputName (outputName inFile outFile) nextFile ≠ outputName inFile outFile) :
    ¬ IndentsConsistently (4 * tabs + 4) before before' files inFile outFile nextFile
      (cutLine tabs) := by
  intro consistent
  have passes := (indentsConsistently_of_apart found apart nextApart).mp consistent
  have fits : HeadPass.Fits (4 * tabs + 4 - 1) [] (cutLine tabs) := by
    constructor
    case lastShort =>
      rw [cutLine, List.length_append, List.length_replicate]
      simp only [List.length_cons, List.length_nil]
      omega
    all_goals simp [joinLines, cutLine]
  have alone : joinLines 10 [] (cutLine tabs) = cutLine tabs := List.nil_append _
  have twice := expandTwice_iff before before' (by omega) fits
  rw [alone] at twice
  exact not_settled_cutLine (by omega) (twice.mp passes.expandTwice).2

/-- 40956 blanks and `"aaa"` fill the buffer. -/
theorem not_indentsConsistently_cutLine :
    ¬ IndentsConsistently 40960 (fun _ => 0) (fun _ => 0)
      (Function.update (fun _ => none) [105] (some (cutLine 10239))) [105] [111] []
      (cutLine 10239) :=
  @not_indentsConsistently_tabs 10239 (by decide) _ _ _ _ _ _ (Function.update_self ..) (by decide)
    (by decide)

end FrameCode.LibFile
