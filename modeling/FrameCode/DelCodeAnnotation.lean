import FrameCode.CText

/-!
# The comment stripper `Bin_DelCodeAnnotation.c`

The program copies C text without its comments.  It reads one byte at a time, with a mode
and the byte before; in literal text a slash is held back until the next byte tells
whether it starts a comment, and in a string so is a backslash.

The reference removal of comments looks ahead instead.  The two agree on every text in
which the reference meets none of five situations (`Defect`).
-/

namespace FrameCode.DelCodeAnnotation

inductive Mode
  | literal
  | single
  | multiple
  | string
  deriving DecidableEq

abbrev slash : UInt8 := 47
abbrev star : UInt8 := 42
abbrev quote : UInt8 := 34
abbrev backslash : UInt8 := 92

/-- The bytes that end a line. -/
def newline (byte : UInt8) : Bool := byte == 10 || byte == 13

/-! ## The program -/

/-- The body of the loop: the mode and the byte to remember, and the bytes written. -/
def readByte (mode : Mode) (last current : UInt8) : Mode × UInt8 × List UInt8 :=
  match mode with
  | .single =>
      if last ≠ backslash ∧ newline current then (.literal, 0, [current])
      else (.single, current, [])
  | .multiple =>
      if last = star ∧ current = slash then (.literal, 0, []) else (.multiple, current, [])
  | .string =>
      if last = backslash then (.string, current, [last, current])
      else if current ≠ backslash then
        (if current = quote then .literal else .string, current, [current])
      else (.string, current, [])
  | .literal =>
      if last = slash then
        if current = slash then (.single, current, [])
        else if current = star then (.multiple, current, [])
        else (.literal, current, [last, current])
      else if current ≠ slash then
        (if current = quote then .string else .literal, current, [current])
      else (.literal, current, [])

/-- The loop; as a `char`, the byte 255 is the end of the file. -/
def mainLoop (mode : Mode) (last : UInt8) : List UInt8 → List UInt8
  | [] => []
  | current :: rest =>
      if current = 255 then []
      else
        let next := readByte mode last current
        next.2.2 ++ mainLoop next.1 next.2.1 rest

/-- `main`: what is written to the output for an input. -/
def delCodeAnnotation (input : List UInt8) : List UInt8 := mainLoop .literal 0 input

/-! ## The reference -/

/-- Removal of comments, in the text that a mode stands for. -/
def reference : Mode → List UInt8 → List UInt8
  | _, [] => []
  | .literal, [c] => [c]
  | .single, [c] => if newline c then [c] else []
  | .multiple, [_] => []
  | .string, [c] => [c]
  | .literal, c :: d :: rest =>
      if c = slash ∧ d = slash then reference .single rest
      else if c = slash ∧ d = star then reference .multiple rest
      else c :: reference (if c = quote then .string else .literal) (d :: rest)
  | .single, c :: d :: rest =>
      if c = backslash ∧ newline d then reference .single rest
      else if newline c then c :: reference .literal (d :: rest)
      else reference .single (d :: rest)
  | .multiple, c :: d :: rest =>
      if c = star ∧ d = slash then reference .literal rest
      else reference .multiple (d :: rest)
  | .string, c :: d :: rest =>
      if c = backslash then c :: d :: reference .string rest
      else c :: reference (if c = quote then .literal else .string) (d :: rest)

/-- What the program does not handle as the reference does. -/
inductive Defect
  | slashAtEnd
  | slashQuote
  | slashStarSlash
  | doubleBackslash
  | backslashAtEnd
  deriving DecidableEq

/-- The first situation of the kind that the reference meets: in literal text a slash at
the end of the file, before a quote, or in `/*/`; in a string a backslash at the end of
the file, or two of them with more to follow. -/
def firstDefect : Mode → List UInt8 → Option Defect
  | _, [] => none
  | .literal, [c] => if c = slash then some .slashAtEnd else none
  | .single, [_] => none
  | .multiple, [_] => none
  | .string, [c] => if c = backslash then some .backslashAtEnd else none
  | .literal, c :: d :: rest =>
      if c = slash ∧ d = slash then firstDefect .single rest
      else if c = slash ∧ d = star then
        if rest.head? = some slash then some .slashStarSlash else firstDefect .multiple rest
      else if c = slash ∧ d = quote then some .slashQuote
      else firstDefect (if c = quote then .string else .literal) (d :: rest)
  | .single, c :: d :: rest =>
      if c = backslash ∧ newline d then firstDefect .single rest
      else if newline c then firstDefect .literal (d :: rest)
      else firstDefect .single (d :: rest)
  | .multiple, c :: d :: rest =>
      if c = star ∧ d = slash then firstDefect .literal rest
      else firstDefect .multiple (d :: rest)
  | .string, c :: d :: rest =>
      if c = backslash then
        if d = backslash ∧ rest ≠ [] then some .doubleBackslash else firstDefect .string rest
      else firstDefect (if c = quote then .literal else .string) (d :: rest)

/-! ## The reference, one byte at a time -/

section Equations

theorem slash_ne_quote : slash ≠ quote := by decide

theorem zero_ne_slash : 0 ≠ slash := by decide

theorem slash_ne_backslash : slash ≠ backslash := by decide

theorem quote_ne_backslash : quote ≠ backslash := by decide

theorem newline_backslash : newline backslash = false := rfl

variable {c d : UInt8} {rest : List UInt8}

theorem reference_nil (mode : Mode) : reference mode [] = [] := by
  cases mode <;> rfl

theorem firstDefect_nil (mode : Mode) : firstDefect mode [] = none := by
  cases mode <;> rfl

theorem reference_literal_pair :
    reference .literal (c :: d :: rest) =
      if c = slash ∧ d = slash then reference .single rest
      else if c = slash ∧ d = star then reference .multiple rest
      else c :: reference (if c = quote then .string else .literal) (d :: rest) := rfl

theorem firstDefect_literal_pair :
    firstDefect .literal (c :: d :: rest) =
      if c = slash ∧ d = slash then firstDefect .single rest
      else if c = slash ∧ d = star then
        if rest.head? = some slash then some .slashStarSlash else firstDefect .multiple rest
      else if c = slash ∧ d = quote then some .slashQuote
      else firstDefect (if c = quote then .string else .literal) (d :: rest) := rfl

theorem reference_literal (ordinary : c ≠ slash) :
    reference .literal (c :: rest) =
      c :: reference (if c = quote then .string else .literal) rest := by
  cases rest with
  | nil =>
      rw [reference_nil]
      rfl
  | cons d rest => simp [reference_literal_pair, ordinary]

theorem firstDefect_literal (ordinary : c ≠ slash) :
    firstDefect .literal (c :: rest) =
      firstDefect (if c = quote then .string else .literal) rest := by
  cases rest with
  | nil =>
      rw [firstDefect_nil]
      exact if_neg ordinary
  | cons d rest => simp [firstDefect_literal_pair, ordinary]

theorem reference_slash (notSlash : d ≠ slash) (notStar : d ≠ star) :
    reference .literal (slash :: d :: rest) =
      slash :: d :: reference (if d = quote then .string else .literal) rest := by
  rw [← reference_literal notSlash]
  simp [reference_literal_pair, notSlash, notStar, slash_ne_quote]

theorem firstDefect_slash (notSlash : d ≠ slash) (notStar : d ≠ star) (notQuote : d ≠ quote) :
    firstDefect .literal (slash :: d :: rest) = firstDefect .literal rest := by
  have next : firstDefect .literal (d :: rest) = _ := firstDefect_literal notSlash
  rw [if_neg notQuote] at next
  rw [← next]
  simp [firstDefect_literal_pair, notSlash, notStar, notQuote, slash_ne_quote]

theorem reference_single_pair :
    reference .single (c :: d :: rest) =
      if c = backslash ∧ newline d then reference .single rest
      else if newline c then c :: reference .literal (d :: rest)
      else reference .single (d :: rest) := rfl

theorem firstDefect_single_pair :
    firstDefect .single (c :: d :: rest) =
      if c = backslash ∧ newline d then firstDefect .single rest
      else if newline c then firstDefect .literal (d :: rest)
      else firstDefect .single (d :: rest) := rfl

theorem reference_single (ordinary : c ≠ backslash) :
    reference .single (c :: rest) =
      if newline c then c :: reference .literal rest else reference .single rest := by
  cases rest with
  | nil =>
      rw [reference_nil, reference_nil]
      rfl
  | cons d rest => simp [reference_single_pair, ordinary]

theorem firstDefect_single (ordinary : c ≠ backslash) :
    firstDefect .single (c :: rest) =
      if newline c then firstDefect .literal rest else firstDefect .single rest := by
  cases rest with
  | nil =>
      rw [firstDefect_nil, firstDefect_nil, ite_self]
      rfl
  | cons d rest => simp [firstDefect_single_pair, ordinary]

theorem reference_single_backslash :
    reference .single (backslash :: d :: rest) =
      if newline d then reference .single rest else reference .single (d :: rest) := by
  simp [reference_single_pair, newline_backslash]

theorem firstDefect_single_backslash :
    firstDefect .single (backslash :: d :: rest) =
      if newline d then firstDefect .single rest else firstDefect .single (d :: rest) := by
  simp [firstDefect_single_pair, newline_backslash]

theorem reference_multiple_pair :
    reference .multiple (c :: d :: rest) =
      if c = star ∧ d = slash then reference .literal rest
      else reference .multiple (d :: rest) := rfl

theorem firstDefect_multiple_pair :
    firstDefect .multiple (c :: d :: rest) =
      if c = star ∧ d = slash then firstDefect .literal rest
      else firstDefect .multiple (d :: rest) := rfl

theorem reference_multiple (ordinary : c ≠ star) :
    reference .multiple (c :: rest) = reference .multiple rest := by
  cases rest with
  | nil => rfl
  | cons d rest => simp [reference_multiple_pair, ordinary]

theorem firstDefect_multiple (ordinary : c ≠ star) :
    firstDefect .multiple (c :: rest) = firstDefect .multiple rest := by
  cases rest with
  | nil => rfl
  | cons d rest => simp [firstDefect_multiple_pair, ordinary]

/-- A star that no slash follows is part of the comment. -/
theorem reference_star (open_ : rest.head? ≠ some slash) :
    reference .multiple (star :: rest) = reference .multiple rest := by
  cases rest with
  | nil => rfl
  | cons d rest => simp_all [reference_multiple_pair]

theorem firstDefect_star (open_ : rest.head? ≠ some slash) :
    firstDefect .multiple (star :: rest) = firstDefect .multiple rest := by
  cases rest with
  | nil => rfl
  | cons d rest => simp_all [firstDefect_multiple_pair]

theorem reference_string_pair :
    reference .string (c :: d :: rest) =
      if c = backslash then c :: d :: reference .string rest
      else c :: reference (if c = quote then .literal else .string) (d :: rest) := rfl

theorem firstDefect_string_pair :
    firstDefect .string (c :: d :: rest) =
      if c = backslash then
        if d = backslash ∧ rest ≠ [] then some .doubleBackslash else firstDefect .string rest
      else firstDefect (if c = quote then .literal else .string) (d :: rest) := rfl

theorem reference_string (ordinary : c ≠ backslash) :
    reference .string (c :: rest) =
      c :: reference (if c = quote then .literal else .string) rest := by
  cases rest with
  | nil =>
      rw [reference_nil]
      rfl
  | cons d rest => simp [reference_string_pair, ordinary]

theorem firstDefect_string (ordinary : c ≠ backslash) :
    firstDefect .string (c :: rest) =
      firstDefect (if c = quote then .literal else .string) rest := by
  cases rest with
  | nil =>
      rw [firstDefect_nil]
      exact if_neg ordinary
  | cons d rest => simp [firstDefect_string_pair, ordinary]

end Equations

/-! ## The program follows the reference -/

/-- The byte that the program holds back. -/
def pending (mode : Mode) (last : UInt8) : List UInt8 :=
  match mode with
  | .literal => if last = slash then [slash] else []
  | .single => if last = backslash then [backslash] else []
  | .multiple => if last = star then [star] else []
  | .string => if last = backslash then [backslash] else []

/-- What a first defect says about the two outputs. -/
def Agrees (defect : Option Defect) (output expected : List UInt8) : Prop :=
  match defect with
  | none => output = expected
  | some .slashQuote | some .slashStarSlash => True
  | some .slashAtEnd | some .doubleBackslash | some .backslashAtEnd => output ≠ expected

theorem Agrees.append {defect : Option Defect} {output expected : List UInt8}
    (agrees : Agrees defect output expected) (written : List UInt8) :
    Agrees defect (written ++ output) (written ++ expected) := by
  unfold Agrees at agrees ⊢
  split at agrees <;> simp_all

theorem mainLoop_cons {mode : Mode} {last current : UInt8} {rest : List UInt8}
    (notEnd : current ≠ 255) :
    mainLoop mode last (current :: rest) =
      (readByte mode last current).2.2 ++
        mainLoop (readByte mode last current).1 (readByte mode last current).2.1 rest :=
  if_neg notEnd

theorem replicate_append_pair (n : Nat) (c : UInt8) (rest : List UInt8) :
    List.replicate n c ++ c :: c :: rest = c :: c :: (List.replicate n c ++ rest) := by
  induction n with
  | zero => rfl
  | succ n ih => rw [List.replicate_succ, List.cons_append, ih]; rfl

/-- After an escaped backslash the program takes the next byte for escaped as well and
writes a backslash too many. -/
theorem stale_backslash_ne (n : Nat) (rest : List UInt8) (noEnd : 255 ∉ rest)
    (more : n ≠ 0 ∨ rest ≠ []) :
    List.replicate n backslash ++ mainLoop .string backslash rest ≠ reference .string rest := by
  match rest with
  | [] =>
      have positive : n ≠ 0 := more.resolve_right fun nonempty => nonempty rfl
      simpa [mainLoop, reference] using positive
  | [c] =>
      have notEnd : c ≠ 255 := fun same => noEnd (by simp [same])
      rw [mainLoop_cons notEnd]
      intro same
      simpa [readByte, mainLoop, reference] using congrArg List.length same
  | c :: d :: rest =>
      have notEnd : c ≠ 255 := fun same => noEnd (by simp [same])
      have notEndNext : d ≠ 255 := fun same => noEnd (by simp [same])
      have noEndRest : 255 ∉ rest := fun inside => noEnd (by simp [inside])
      intro same
      by_cases escape : c = backslash
      · subst escape
        have written : mainLoop .string backslash (backslash :: d :: rest) =
            backslash :: backslash :: backslash :: d :: mainLoop .string d rest := by
          rw [mainLoop_cons notEnd]
          simp [readByte, mainLoop_cons notEndNext]
        have expected : reference .string (backslash :: d :: rest) =
            backslash :: d :: reference .string rest := by simp [reference]
        rw [written, expected, replicate_append_pair] at same
        obtain ⟨-, same⟩ := List.cons.inj same
        obtain ⟨next, same⟩ := List.cons.inj same
        subst next
        rw [replicate_append_pair] at same
        exact stale_backslash_ne (n + 2) rest noEndRest (Or.inl (by omega)) same
      · rw [reference_string escape, mainLoop_cons notEnd] at same
        have head := congrArg List.head? same
        cases n with
        | zero => exact escape (Option.some.inj head).symm
        | succ n => exact escape (Option.some.inj head).symm

/-- The program is right on the rest of a text, in whatever state it is. -/
def Follows (rest : List UInt8) : Prop :=
  ∀ mode last, Agrees (firstDefect mode (pending mode last ++ rest)) (mainLoop mode last rest)
    (reference mode (pending mode last ++ rest))

theorem follows_nil : Follows [] := by
  intro mode last
  cases mode with
  | literal =>
      by_cases held : last = slash
      · simp [pending, held, firstDefect, Agrees, mainLoop, reference]
      · simp [pending, held, firstDefect, Agrees, mainLoop, reference]
  | single =>
      by_cases held : last = backslash
      · simp [pending, held, firstDefect, Agrees, mainLoop, reference, newline_backslash]
      · simp [pending, held, firstDefect, Agrees, mainLoop, reference]
  | multiple =>
      by_cases held : last = star
      · simp [pending, held, firstDefect, Agrees, mainLoop, reference]
      · simp [pending, held, firstDefect, Agrees, mainLoop, reference]
  | string =>
      by_cases held : last = backslash
      · simp [pending, held, firstDefect, Agrees, mainLoop, reference]
      · simp [pending, held, firstDefect, Agrees, mainLoop, reference]

section Step

variable {current last : UInt8} {rest : List UInt8}

/-- What the states say, one byte later. -/
theorem Follows.next (follows : Follows rest) {mode next : Mode} {remember : UInt8}
    {written : List UInt8} (notEnd : current ≠ 255)
    (read : readByte mode last current = (next, remember, written))
    (expected : reference mode (pending mode last ++ current :: rest) =
      written ++ reference next (pending next remember ++ rest))
    (defect : firstDefect mode (pending mode last ++ current :: rest) =
      firstDefect next (pending next remember ++ rest)) :
    Agrees (firstDefect mode (pending mode last ++ current :: rest))
      (mainLoop mode last (current :: rest))
      (reference mode (pending mode last ++ current :: rest)) := by
  rw [expected, defect, mainLoop_cons notEnd, read]
  exact (follows next remember).append written

theorem Follows.single (follows : Follows rest) (notEnd : current ≠ 255) :
    Agrees (firstDefect .single (pending .single last ++ current :: rest))
      (mainLoop .single last (current :: rest))
      (reference .single (pending .single last ++ current :: rest)) := by
  by_cases held : last = backslash
  · subst held
    have read : readByte .single backslash current = (.single, current, []) := by simp [readByte]
    by_cases again : current = backslash
    · subst again
      exact follows.next notEnd read
        (by simp [pending, reference_single_backslash, newline_backslash])
        (by simp [pending, firstDefect_single_backslash, newline_backslash])
    · refine follows.next notEnd read ?_ ?_
      · simp +contextual [pending, again, reference_single_backslash, reference_single again]
      · simp +contextual [pending, again, firstDefect_single_backslash, firstDefect_single again]
  · by_cases hold : current = backslash
    · subst hold
      have read : readByte .single last backslash = (.single, backslash, []) := by
        simp [readByte, newline_backslash]
      exact follows.next notEnd read (by simp [pending, held]) (by simp [pending, held])
    · by_cases ends : newline current = true
      · have read : readByte .single last current = (.literal, 0, [current]) := by
          simp [readByte, held, ends]
        exact follows.next notEnd read
          (by simp [pending, held, reference_single hold, ends, zero_ne_slash])
          (by simp [pending, held, firstDefect_single hold, ends, zero_ne_slash])
      · have read : readByte .single last current = (.single, current, []) := by
          simp [readByte, ends]
        exact follows.next notEnd read (by simp [pending, held, hold, reference_single hold, ends])
          (by simp [pending, held, hold, firstDefect_single hold, ends])

theorem Follows.multiple (follows : Follows rest) (notEnd : current ≠ 255) :
    Agrees (firstDefect .multiple (pending .multiple last ++ current :: rest))
      (mainLoop .multiple last (current :: rest))
      (reference .multiple (pending .multiple last ++ current :: rest)) := by
  by_cases held : last = star
  · subst held
    by_cases closes : current = slash
    · subst closes
      have read : readByte .multiple star slash = (.literal, 0, []) := rfl
      exact follows.next notEnd read (by simp [pending, reference, zero_ne_slash])
        (by simp [pending, firstDefect, zero_ne_slash])
    · have open_ : (current :: rest).head? ≠ some slash := by simpa using closes
      have read : readByte .multiple star current = (.multiple, current, []) := by
        simp [readByte, closes]
      refine follows.next notEnd read ?_ ?_
      · by_cases hold : current = star
        · simp [pending, hold, reference_star (hold ▸ open_)]
        · simp [pending, hold, reference_star open_, reference_multiple hold]
      · by_cases hold : current = star
        · simp [pending, hold, firstDefect_star (hold ▸ open_)]
        · simp [pending, hold, firstDefect_star open_, firstDefect_multiple hold]
  · have read : readByte .multiple last current = (.multiple, current, []) := by
      simp [readByte, held]
    refine follows.next notEnd read ?_ ?_
    · by_cases hold : current = star
      · simp [pending, held, hold]
      · simp [pending, held, hold, reference_multiple hold]
    · by_cases hold : current = star
      · simp [pending, held, hold]
      · simp [pending, held, hold, firstDefect_multiple hold]

theorem Follows.string (follows : Follows rest) (notEnd : current ≠ 255) (noEnd : 255 ∉ rest) :
    Agrees (firstDefect .string (pending .string last ++ current :: rest))
      (mainLoop .string last (current :: rest))
      (reference .string (pending .string last ++ current :: rest)) := by
  by_cases held : last = backslash
  · subst held
    have expected : reference .string (backslash :: current :: rest) =
        [backslash, current] ++ reference .string rest := by simp [reference]
    by_cases again : current = backslash
    · subst again
      have written : mainLoop .string backslash (backslash :: rest) =
          [backslash, backslash] ++ mainLoop .string backslash rest := by
        rw [mainLoop_cons notEnd]
        rfl
      have start : pending .string backslash ++ backslash :: rest =
          backslash :: backslash :: rest := rfl
      rw [start, written, expected]
      refine Agrees.append ?_ _
      by_cases more : rest = []
      · subst more
        simp [firstDefect, Agrees, mainLoop, reference]
      · have defect : firstDefect .string (backslash :: backslash :: rest) =
            some .doubleBackslash := by simp [firstDefect, more]
        rw [defect]
        exact stale_backslash_ne 0 rest noEnd (Or.inr more)
    · have read : readByte .string backslash current =
          (.string, current, [backslash, current]) := rfl
      exact follows.next notEnd read (by simpa [pending, again] using expected)
        (by simp [pending, again, firstDefect])
  · by_cases hold : current = backslash
    · subst hold
      have read : readByte .string last backslash = (.string, backslash, []) := by
        simp [readByte, held]
      exact follows.next notEnd read (by simp [pending, held]) (by simp [pending, held])
    · have read : readByte .string last current =
          (if current = quote then .literal else .string, current, [current]) := by
        simp [readByte, held, hold]
      by_cases closes : current = quote
      · subst closes
        exact follows.next notEnd read
          (by simp [pending, held, reference_string hold, slash_ne_quote.symm])
          (by simp [pending, held, firstDefect_string hold, slash_ne_quote.symm])
      · rw [if_neg closes] at read
        exact follows.next notEnd read
          (by simp [pending, held, hold, reference_string hold, closes])
          (by simp [pending, held, hold, firstDefect_string hold, closes])

theorem Follows.literal (follows : Follows rest) (notEnd : current ≠ 255) :
    Agrees (firstDefect .literal (pending .literal last ++ current :: rest))
      (mainLoop .literal last (current :: rest))
      (reference .literal (pending .literal last ++ current :: rest)) := by
  by_cases held : last = slash
  · subst held
    by_cases line : current = slash
    · subst line
      have read : readByte .literal slash slash = (.single, slash, []) := rfl
      exact follows.next notEnd read (by simp [pending, reference, slash_ne_backslash])
        (by simp [pending, firstDefect, slash_ne_backslash])
    · by_cases block : current = star
      · subst block
        have read : readByte .literal slash star = (.multiple, star, []) := rfl
        by_cases closed : rest.head? = some slash
        · have defect : firstDefect .literal (slash :: star :: rest) = some .slashStarSlash := by
            simp [firstDefect, closed, line]
          change Agrees (firstDefect .literal (slash :: star :: rest)) _ _
          rw [defect]
          trivial
        · refine follows.next notEnd read ?_ ?_
          · simp [pending, reference, reference_star closed, line]
          · simp [pending, firstDefect, firstDefect_star closed, closed, line]
      · by_cases opens : current = quote
        · subst opens
          have defect : firstDefect .literal (slash :: quote :: rest) = some .slashQuote := by
            simp [firstDefect, line, block]
          change Agrees (firstDefect .literal (slash :: quote :: rest)) _ _
          rw [defect]
          trivial
        · have read : readByte .literal slash current = (.literal, current, [slash, current]) := by
            simp [readByte, line, block]
          exact follows.next notEnd read
            (by simp [pending, line, reference_slash line block, opens])
            (by simp [pending, line, firstDefect_slash line block opens])
  · by_cases hold : current = slash
    · subst hold
      have read : readByte .literal last slash = (.literal, slash, []) := by
        simp [readByte, held]
      exact follows.next notEnd read (by simp [pending, held]) (by simp [pending, held])
    · have read : readByte .literal last current =
          (if current = quote then .string else .literal, current, [current]) := by
        simp [readByte, held, hold]
      by_cases opens : current = quote
      · subst opens
        exact follows.next notEnd read
          (by simp [pending, held, reference_literal hold, quote_ne_backslash])
          (by simp [pending, held, firstDefect_literal hold, quote_ne_backslash])
      · rw [if_neg opens] at read
        exact follows.next notEnd read
          (by simp [pending, held, hold, reference_literal hold, opens])
          (by simp [pending, held, hold, firstDefect_literal hold, opens])

end Step

/-- The program follows the reference up to the first defect. -/
theorem follows {rest : List UInt8} (noEnd : 255 ∉ rest) : Follows rest := by
  induction rest with
  | nil => exact follows_nil
  | cons current rest ih =>
      have notEnd : current ≠ 255 := fun same => noEnd (by simp [same])
      have noEndRest : 255 ∉ rest := fun inside => noEnd (by simp [inside])
      intro mode last
      cases mode with
      | literal => exact (ih noEndRest).literal notEnd
      | single => exact (ih noEndRest).single notEnd
      | multiple => exact (ih noEndRest).multiple notEnd
      | string => exact (ih noEndRest).string notEnd noEndRest

/-- The output is the reference removal of comments when the text has none of the five
situations, and is not when the first of them is a slash or a backslash that is lost at the
end of the file or a backslash that is written twice. -/
theorem delCodeAnnotation_reference {input : List UInt8} (noEnd : 255 ∉ input) :
    (firstDefect .literal input = none →
        delCodeAnnotation input = reference .literal input) ∧
      (firstDefect .literal input ∈
          [some .slashAtEnd, some .doubleBackslash, some .backslashAtEnd] →
        delCodeAnnotation input ≠ reference .literal input) := by
  have agrees : Agrees (firstDefect .literal input) (mainLoop .literal 0 input)
      (reference .literal input) := follows noEnd .literal 0
  constructor
  · intro clean
    rw [clean] at agrees
    exact agrees
  · intro defect
    simp only [List.mem_cons, List.not_mem_nil, or_false] at defect
    rcases defect with defect | defect | defect
    all_goals
      rw [defect] at agrees
      exact agrees

/-- A text with both kinds of comments, a string and a division. -/
theorem delCodeAnnotation_reference_text :
    delCodeAnnotation (CText.literal "a/b // c\\\n d\n\"//\\\"\" /* e */f") =
        CText.literal "a/b \n\"//\\\"\" f" ∧
      delCodeAnnotation (CText.literal "a/b // c\\\n d\n\"//\\\"\" /* e */f") =
        reference .literal (CText.literal "a/b // c\\\n d\n\"//\\\"\" /* e */f") :=
  ⟨by decide, (delCodeAnnotation_reference (by decide)).1 (by decide)⟩

/-- A slash at the end of the text is lost. -/
theorem not_delCodeAnnotation_reference :
    ¬ ∀ input : List UInt8, 255 ∉ input →
      delCodeAnnotation input = reference .literal input := by
  intro all
  exact absurd (all (CText.literal "a/") (by decide)) (by decide)

end FrameCode.DelCodeAnnotation
