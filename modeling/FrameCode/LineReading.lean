import Mathlib.Data.List.Basic

/-!
# Reading a stream in pieces

A piece of a stream ends with the first stop symbol, after `limit` symbols or at the end of
the stream, whichever comes first.  Reading piece after piece cuts lines that are too long,
and leaves the last piece without its stop symbol when the stream lacks it.
-/

namespace FrameCode.LineReading

variable {α : Type} [DecidableEq α] (stop : α)

/-- The first piece of a stream, and what follows it. -/
def readPiece : Nat → List α → List α × List α
  | 0, stream => ([], stream)
  | _ + 1, [] => ([], [])
  | limit + 1, symbol :: rest =>
      if symbol = stop then ([symbol], rest)
      else (symbol :: (readPiece limit rest).1, (readPiece limit rest).2)

attribute [grind =] readPiece

def piecesWith (limit : Nat) : Nat → List α → List (List α)
  | 0, _ => []
  | _ + 1, [] => []
  | fuel + 1, stream =>
      (readPiece stop limit stream).1 :: piecesWith limit fuel (readPiece stop limit stream).2

/-- All pieces of a stream.  Each of them has at least one symbol, so that there are not more
pieces than symbols. -/
def pieces (limit : Nat) (stream : List α) : List (List α) :=
  piecesWith stop limit stream.length stream

variable {stop} {limit : Nat} {stream : List α}

variable (stop) in
theorem readPiece_append (limit : Nat) (stream : List α) :
    (readPiece stop limit stream).1 ++ (readPiece stop limit stream).2 = stream := by
  induction limit generalizing stream with
  | zero => rfl
  | succ limit ih =>
      cases stream with
      | nil => rfl
      | cons symbol rest =>
          rw [readPiece]
          split
          · rfl
          · simp [ih rest]

variable (stop) in
theorem readPiece_length_le (limit : Nat) (stream : List α) :
    (readPiece stop limit stream).1.length ≤ limit := by
  induction limit generalizing stream with
  | zero => simp [readPiece]
  | succ limit ih =>
      cases stream with
      | nil => simp [readPiece]
      | cons symbol rest =>
          rw [readPiece]
          split
          · simp
          · simpa using ih rest

variable (stop) in
theorem readPiece_ne_nil (positive : 0 < limit) (nonempty : stream ≠ []) :
    (readPiece stop limit stream).1 ≠ [] := by
  obtain ⟨limit, rfl⟩ := Nat.exists_eq_add_of_lt positive
  obtain ⟨symbol, rest, rfl⟩ := List.exists_cons_of_ne_nil nonempty
  rw [Nat.zero_add, readPiece]
  split <;> simp

variable (stop) in
theorem length_rest_lt (positive : 0 < limit) (nonempty : stream ≠ []) :
    (readPiece stop limit stream).2.length < stream.length := by
  have total := congrArg List.length (readPiece_append stop limit stream)
  have some := List.length_pos_of_ne_nil (readPiece_ne_nil stop positive nonempty)
  rw [List.length_append] at total
  omega

/-- A line within the limit is read as one piece. -/
theorem readPiece_line {line : List α} (single : stop ∉ line) (short : line.length < limit)
    (rest : List α) :
    readPiece stop limit (line ++ stop :: rest) = (line ++ [stop], rest) := by
  induction line generalizing limit with
  | nil =>
      obtain ⟨limit, rfl⟩ := Nat.exists_eq_add_of_lt short
      simp [readPiece]
  | cons symbol line ih =>
      obtain ⟨different, single⟩ := List.ne_and_not_mem_of_not_mem_cons single
      cases limit with
      | zero => cases short
      | succ limit =>
          have inner := ih single (Nat.lt_of_succ_lt_succ short)
          simp [readPiece, Ne.symm different, inner]

/-- What follows a piece does not matter when the piece does not reach the end. -/
theorem readPiece_append_of_rest (more : List α)
    (remains : (readPiece stop limit stream).2 ≠ []) :
    readPiece stop limit (stream ++ more) =
      ((readPiece stop limit stream).1, (readPiece stop limit stream).2 ++ more) := by
  induction limit generalizing stream with
  | zero => rfl
  | succ limit ih =>
      cases stream with
      | nil => exact absurd rfl remains
      | cons symbol rest =>
          rw [readPiece] at remains
          rw [List.cons_append, readPiece, readPiece]
          by_cases stops : symbol = stop
          · simp [stops]
          · rw [if_neg stops] at remains
            simp [stops, ih remains]

/-- A limit of just the symbols before the stop symbol leaves that one. -/
theorem readPiece_unstopped {line : List α} (unstopped : stop ∉ line) (rest : List α) :
    readPiece stop line.length (line ++ rest) = (line, rest) := by
  induction line with
  | nil => rfl
  | cons symbol line ih =>
      obtain ⟨different, unstopped⟩ := List.ne_and_not_mem_of_not_mem_cons unstopped
      simp [readPiece, Ne.symm different, ih unstopped]

/-- A stream that is one piece without a stop symbol becomes a line, or a full piece and a
stop symbol. -/
theorem readPiece_append_stop (unstopped : stop ∉ stream)
    (short : stream.length ≤ limit) :
    readPiece stop limit (stream ++ [stop]) = (stream ++ [stop], []) ∨
      readPiece stop limit (stream ++ [stop]) = (stream, [stop]) := by
  rcases Nat.lt_or_eq_of_le short with less | rfl
  · exact Or.inl (readPiece_line unstopped less [])
  · exact Or.inr (readPiece_unstopped unstopped [stop])

/-- A piece has its stop symbol, if any, at its end. -/
theorem stop_mem_readPiece (found : stop ∈ (readPiece stop limit stream).1) :
    (readPiece stop limit stream).1.getLast? = some stop := by
  induction limit generalizing stream with
  | zero => cases found
  | succ limit ih =>
      cases stream with
      | nil => cases found
      | cons symbol rest =>
          rw [readPiece] at found ⊢
          by_cases stops : symbol = stop
          · simp [stops]
          · rw [if_neg stops] at found ⊢
            have inner := (List.mem_cons.mp found).resolve_left (Ne.symm stops)
            rw [List.getLast?_cons, ih inner]
            rfl

/-! ## All pieces -/

theorem piecesWith_fuel (positive : 0 < limit) {fuel other : Nat}
    (enough : stream.length ≤ fuel) (enoughOther : stream.length ≤ other) :
    piecesWith stop limit fuel stream = piecesWith stop limit other stream := by
  induction fuel generalizing other stream with
  | zero =>
      obtain rfl := List.eq_nil_of_length_eq_zero (Nat.le_zero.mp enough)
      cases other <;> rfl
  | succ fuel ih =>
      cases stream with
      | nil => cases other <;> rfl
      | cons symbol rest =>
          have shorter := length_rest_lt stop positive (List.cons_ne_nil symbol rest)
          rw [List.length_cons] at enough enoughOther shorter
          cases other with
          | zero => omega
          | succ other =>
              have sameRest := @ih (readPiece stop limit (symbol :: rest)).2 other (by omega)
                (by omega)
              simp only [piecesWith, sameRest]

@[simp] theorem pieces_nil (limit : Nat) : pieces stop limit [] = [] := rfl

theorem pieces_eq (positive : 0 < limit) (nonempty : stream ≠ []) :
    pieces stop limit stream =
      (readPiece stop limit stream).1 :: pieces stop limit (readPiece stop limit stream).2 := by
  have shorter := length_rest_lt stop positive nonempty
  obtain ⟨symbol, rest, rfl⟩ := List.exists_cons_of_ne_nil nonempty
  rw [List.length_cons] at shorter
  unfold pieces
  simp only [List.length_cons, piecesWith]
  rw [piecesWith_fuel positive (Nat.le_of_lt_succ shorter) (Nat.le_refl _)]

variable (stop) in
/-- Lines with their stop symbols, and what follows the last of these. -/
def joinLines (lines : List (List α)) (last : List α) : List α :=
  lines.flatMap (fun line => line ++ [stop]) ++ last

omit [DecidableEq α] in
theorem joinLines_cons (line : List α) (lines : List (List α)) (last : List α) :
    joinLines stop (line :: lines) last = line ++ stop :: joinLines stop lines last := by
  simp [joinLines]

omit [DecidableEq α] in
theorem notMem_joinLines {symbol : α} (other : symbol ≠ stop) {lines : List (List α)}
    {last : List α} :
    symbol ∉ joinLines stop lines last ↔ (∀ line ∈ lines, symbol ∉ line) ∧ symbol ∉ last := by
  simp [joinLines, other]

/-- Lines within the limit are pieces. -/
theorem pieces_joinLines {lines : List (List α)} {last : List α}
    (lawful : ∀ line ∈ lines, stop ∉ line ∧ line.length < limit) :
    pieces stop limit (joinLines stop lines last) =
      lines.map (fun line => line ++ [stop]) ++ pieces stop limit last := by
  induction lines with
  | nil => rfl
  | cons line rest ih =>
      rw [List.forall_mem_cons] at lawful
      obtain ⟨⟨single, short⟩, later⟩ := lawful
      rw [joinLines_cons, pieces_eq (Nat.zero_lt_of_lt short) (by simp),
        readPiece_line single short, ih later]
      rfl

/-- The lines of a stream are its pieces when they are within the limit. -/
theorem pieces_lines {lines : List (List α)} (lawful : ∀ line ∈ lines, stop ∉ line ∧
    line.length < limit) :
    pieces stop limit (lines.flatMap fun line => line ++ [stop]) =
      lines.map fun line => line ++ [stop] := by
  have joined := @pieces_joinLines _ _ _ _ lines [] lawful
  rwa [joinLines, pieces_nil, List.append_nil, List.append_nil] at joined

/-- A piece is not empty and has only symbols of the stream. -/
theorem of_mem_pieces (positive : 0 < limit) {piece : List α}
    (member : piece ∈ pieces stop limit stream) :
    piece ≠ [] ∧ ∀ symbol ∈ piece, symbol ∈ stream := by
  induction h : stream.length using Nat.strongRecOn generalizing stream with
  | _ length ih =>
      by_cases nonempty : stream = []
      · subst nonempty
        cases member
      · have whole := readPiece_append stop limit stream
        rw [pieces_eq positive nonempty, List.mem_cons] at member
        rcases member with rfl | later
        · refine ⟨readPiece_ne_nil stop positive nonempty, fun symbol inside => ?_⟩
          rw [← whole]
          exact List.mem_append_left _ inside
        · obtain ⟨some, inStream⟩ :=
            ih _ (h ▸ length_rest_lt stop positive nonempty) later rfl
          refine ⟨some, fun symbol inside => ?_⟩
          rw [← whole]
          exact List.mem_append_right _ (inStream symbol inside)

/-- A stop symbol at the end of a stream that lacks one completes its last piece, or follows
it as a piece of its own. -/
theorem pieces_append_stop (positive : 0 < limit) (nonempty : stream ≠ [])
    (lacks : stream.getLast? ≠ some stop) :
    ∃ before last, pieces stop limit stream = before ++ [last] ∧
      last.getLast? ≠ some stop ∧
      (pieces stop limit (stream ++ [stop]) = before ++ [last ++ [stop]] ∨
        pieces stop limit (stream ++ [stop]) = before ++ [last, [stop]]) := by
  induction h : stream.length using Nat.strongRecOn generalizing stream with
  | _ length ih =>
      have whole := readPiece_append stop limit stream
      have shorter := length_rest_lt stop positive nonempty
      have bound := readPiece_length_le stop limit stream
      have stopped := @stop_mem_readPiece _ _ stop limit stream
      have appended : stream ++ [stop] ≠ [] := by simp
      rw [pieces_eq positive nonempty, pieces_eq positive appended]
      by_cases remains : (readPiece stop limit stream).2 = []
      · rw [remains, List.append_nil] at whole
        rw [whole] at stopped bound
        refine ⟨[], stream, ?_, lacks, ?_⟩
        · simp [remains, whole]
        · rcases readPiece_append_stop (fun found => lacks (stopped found)) bound with
            line | full
          · simp [line]
          · right
            have single : pieces stop limit [stop] = [[stop]] := by
              have line := @pieces_lines _ _ stop limit [[]] (by simpa using positive)
              simpa using line
            simp [full, single]
      · rw [readPiece_append_of_rest [stop] remains]
        have lacksRest : (readPiece stop limit stream).2.getLast? ≠ some stop := by
          intro found
          apply lacks
          rw [← whole, List.getLast?_append, found]
          rfl
        obtain ⟨before, last, piecesEq, unstopped, completed⟩ :=
          ih _ (h ▸ shorter) remains lacksRest rfl
        refine ⟨_ :: before, last, by rw [piecesEq]; rfl, unstopped, ?_⟩
        exact completed.imp (congrArg _) (congrArg _)

/-! ## Lines and pieces -/

variable (stop) in
/-- The lines of a stream, without their stop symbols, and what follows the last of these. -/
def splitLines : List α → List (List α) × List α
  | [] => ([], [])
  | symbol :: rest =>
      if symbol = stop then ([] :: (splitLines rest).1, (splitLines rest).2)
      else
        match splitLines rest with
        | ([], last) => ([], symbol :: last)
        | (line :: lines, last) => ((symbol :: line) :: lines, last)

variable (stop) in
theorem joinLines_splitLines (stream : List α) :
    joinLines stop (splitLines stop stream).1 (splitLines stop stream).2 = stream := by
  induction stream with
  | nil => rfl
  | cons symbol rest ih =>
      rw [splitLines]
      split
      · rw [joinLines_cons, ih]
        simp [*]
      · split
        · rename_i split
          rw [split] at ih
          simpa [joinLines] using ih
        · rename_i split
          rw [split] at ih
          rw [joinLines_cons] at ih ⊢
          simpa using ih

variable (stop) in
theorem stop_notMem_splitLines (stream : List α) :
    (∀ line ∈ (splitLines stop stream).1, stop ∉ line) ∧ stop ∉ (splitLines stop stream).2 := by
  induction stream with
  | nil => simp [splitLines]
  | cons symbol rest ih =>
      rw [splitLines]
      split
      · simpa using ih
      · rename_i different
        split
        · rename_i split
          rw [split] at ih
          simpa [Ne.symm different] using ih
        · rename_i split
          rw [split] at ih
          simpa [Ne.symm different] using ih

/-- Lines without stop symbols are read back. -/
theorem splitLines_joinLines {lines : List (List α)} {last : List α}
    (unstopped : ∀ line ∈ lines, stop ∉ line) (lastUnstopped : stop ∉ last) :
    splitLines stop (joinLines stop lines last) = (lines, last) := by
  have ending (last : List α) (lastUnstopped : stop ∉ last) :
      splitLines stop last = ([], last) := by
    induction last with
    | nil => rfl
    | cons symbol last ih =>
        obtain ⟨different, lastUnstopped⟩ := List.ne_and_not_mem_of_not_mem_cons lastUnstopped
        rw [splitLines, if_neg (Ne.symm different), ih lastUnstopped]
  have before (line rest : List α) (single : stop ∉ line) :
      splitLines stop (line ++ stop :: rest) =
        (line :: (splitLines stop rest).1, (splitLines stop rest).2) := by
    induction line with
    | nil => rw [List.nil_append, splitLines, if_pos rfl]
    | cons symbol line ih =>
        obtain ⟨different, single⟩ := List.ne_and_not_mem_of_not_mem_cons single
        rw [List.cons_append, splitLines, if_neg (Ne.symm different), ih single]
  induction lines with
  | nil => exact ending last lastUnstopped
  | cons line lines ih =>
      rw [List.forall_mem_cons] at unstopped
      rw [joinLines_cons, before _ _ unstopped.1, ih unstopped.2]

/-- A long line is cut. -/
theorem pieces_cut (positive : 0 < limit) {line : List α} (unstopped : stop ∉ line)
    (long : limit ≤ line.length) (rest : List α) :
    pieces stop limit (line ++ rest) =
      line.take limit :: pieces stop limit (line.drop limit ++ rest) := by
  have whole : line ++ rest = line.take limit ++ (line.drop limit ++ rest) := by
    rw [← List.append_assoc, List.take_append_drop]
  have length_eq : (line.take limit).length = limit := by
    rw [List.length_take, Nat.min_eq_left long]
  have unstoppedTake : stop ∉ line.take limit := fun found => unstopped (List.mem_of_mem_take found)
  have piece : readPiece stop limit (line ++ rest) = (line.take limit, line.drop limit ++ rest) := by
    have read := readPiece_unstopped unstoppedTake (line.drop limit ++ rest)
    rwa [length_eq, ← whole] at read
  rw [pieces_eq positive, piece]
  intro nothing
  have some := congrArg List.length nothing
  rw [List.length_append, List.length_nil] at some
  omega

/-- A line of just the limit leaves its stop symbol to a piece of its own. -/
theorem pieces_full (positive : 0 < limit) {line : List α} (unstopped : stop ∉ line)
    (full : line.length = limit) (rest : List α) :
    pieces stop limit (line ++ stop :: rest) = line :: [stop] :: pieces stop limit rest := by
  rw [pieces_cut positive unstopped (Nat.le_of_eq full.symm),
    List.take_of_length_le (Nat.le_of_eq full), List.drop_of_length_le (Nat.le_of_eq full),
    List.nil_append, pieces_eq positive (List.cons_ne_nil _ _)]
  have alone : readPiece stop limit (stop :: rest) = ([stop], rest) :=
    readPiece_line (List.not_mem_nil) positive rest
  rw [alone]

theorem stop_mem_pieces (positive : 0 < limit) {lines : List (List α)} {last line : List α}
    (lawful : ∀ line ∈ lines, stop ∉ line ∧ line.length ≤ limit) (member : line ∈ lines)
    (full : line.length = limit) : [stop] ∈ pieces stop limit (joinLines stop lines last) := by
  induction lines with
  | nil => cases member
  | cons first lines ih =>
      rw [List.forall_mem_cons] at lawful
      obtain ⟨⟨single, bounded⟩, later⟩ := lawful
      rw [joinLines_cons]
      rcases Nat.lt_or_eq_of_le bounded with short | filled
      · rw [pieces_eq positive (by simp), readPiece_line single short]
        rcases List.mem_cons.mp member with rfl | inside
        · exact absurd full (Nat.ne_of_lt short)
        · exact List.mem_cons_of_mem _ (ih later inside)
      · rw [pieces_full positive single filled]
        simp

theorem readPiece_all {line : List α} (unstopped : stop ∉ line) (short : line.length ≤ limit) :
    readPiece stop limit line = (line, []) := by
  induction line generalizing limit with
  | nil => cases limit <;> rfl
  | cons symbol line ih =>
      obtain ⟨different, unstopped⟩ := List.ne_and_not_mem_of_not_mem_cons unstopped
      cases limit with
      | zero => cases short
      | succ limit =>
          have inner := ih unstopped (Nat.le_of_succ_le_succ short)
          simp [readPiece, Ne.symm different, inner]

/-- A stream with nothing but a short line. -/
theorem pieces_short {line : List α} (unstopped : stop ∉ line) (short : line.length ≤ limit) :
    pieces stop limit line = if line = [] then [] else [line] := by
  by_cases nonempty : line = []
  · rw [if_pos nonempty, nonempty, pieces_nil]
  · have positive : 0 < limit := Nat.lt_of_lt_of_le (List.length_pos_iff.mpr nonempty) short
    rw [if_neg nonempty, pieces_eq positive nonempty, readPiece_all unstopped short, pieces_nil]

section PieceByPiece

variable {β : Type} {f : List α → List β} {tail : List β} {lines : List (List α)} {last : List α}

/-- What `f` makes of the pieces of a line does not depend on what follows it. -/
theorem flatMap_pieces_line (positive : 0 < limit) (f_nil : f [] = [])
    (f_stop : ∀ line, stop ∉ line → f (line ++ [stop]) = f line ++ tail) {line : List α}
    (unstopped : stop ∉ line) (rest : List α) :
    (pieces stop limit (line ++ stop :: rest)).flatMap f =
      (pieces stop limit line).flatMap f ++ tail ++ (pieces stop limit rest).flatMap f := by
  induction h : line.length using Nat.strongRecOn generalizing line with
  | _ length ih =>
      by_cases long : limit ≤ line.length
      · have unstoppedDrop : stop ∉ line.drop limit := fun found =>
          unstopped (List.mem_of_mem_drop found)
        have cut := pieces_cut positive unstopped long []
        rw [List.append_nil, List.append_nil] at cut
        rw [pieces_cut positive unstopped long, cut, List.flatMap_cons, List.flatMap_cons,
          ih _ (by rw [List.length_drop]; omega) unstoppedDrop rfl]
        simp only [List.append_assoc]
      · have short : line.length < limit := Nat.lt_of_not_le long
        rw [pieces_eq positive (by simp), readPiece_line unstopped short, List.flatMap_cons,
          f_stop line unstopped, pieces_short unstopped (Nat.le_of_lt short)]
        by_cases nonempty : line = []
        · simp [nonempty, f_nil]
        · simp [nonempty]

/-- What is made of the pieces is made of the lines. -/
theorem flatMap_pieces_joinLines (positive : 0 < limit) (f_nil : f [] = [])
    (f_stop : ∀ line, stop ∉ line → f (line ++ [stop]) = f line ++ tail)
    (unstopped : ∀ line ∈ lines, stop ∉ line) :
    (pieces stop limit (joinLines stop lines last)).flatMap f =
      lines.flatMap (fun line => (pieces stop limit line).flatMap f ++ tail) ++
        (pieces stop limit last).flatMap f := by
  induction lines with
  | nil => rfl
  | cons line lines ih =>
      rw [List.forall_mem_cons] at unstopped
      rw [joinLines_cons, flatMap_pieces_line positive f_nil f_stop unstopped.1, ih unstopped.2,
        List.flatMap_cons]
      simp only [List.append_assoc]

end PieceByPiece

end FrameCode.LineReading
