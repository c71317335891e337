import FrameCode.MonitorConfFile

/-!
# When the monitor loads what its configuration says

A value keeps the line end that follows it, and every beginning of a key is taken for the key.
The run over the lines of a file is that over its sections, each of which leaves its nodes in
the list when the next one begins.
-/

namespace FrameCode.MonitorConfFile

open CText LibString LineReading

/-! ## Where the two agree -/

/-- The keys that are taken for `PROCESSNUM`: its beginnings, the empty one too. -/
def takesNumber (key : List UInt8) : Bool := key.isPrefixOf (literal "PROCESSNUM")

/-- The keys that are taken for `BINPATHNAME`. -/
def takesPath (key : List UInt8) : Bool :=
  !takesNumber key && key.isPrefixOf (literal "BINPATHNAME")

namespace Section

variable (s : Section)

/-- The number that is left in `iProcessnum` at the end of the section. -/
def readNumber : Int := (s.last takesNumber).elim 0 fun setting => atoi setting.copied

/-- The path that is left in the node at the end of the section. -/
def readPath : List UInt8 := (s.last takesPath).elim [] Setting.copied

/-- The nodes that are put into the list for the section. -/
def inserted : List ProcessInfo :=
  List.replicate s.readNumber.toNat { sProcessLabel := s.name, sBinPathName := s.readPath }

/-- The fields of the node hold all that is copied into them. -/
structure Fits : Prop where
  name : s.name.length ≤ 256
  paths : ∀ setting ∈ s.settings, takesPath setting.key = true → setting.copied.length ≤ 256

/-- The section gets the nodes it asks for: all fits, the last line taken for `PROCESSNUM` has
the number of the last one that is, and, unless no node is asked for, the last line taken for
`BINPATHNAME` ends the file without a line end and has the value of the last one that is. -/
structure Agrees : Prop where
  fits : s.Fits
  number : ((s.last takesNumber).elim 0 fun setting => atoi setting.value).toNat =
    s.processnum.toNat
  path : 0 < s.processnum → ∀ setting, s.last takesPath = some setting →
    setting.ended = false ∧ setting.value = s.binpathname

end Section

/-! ## The lines that are read -/

namespace Loading

/-- A turn of the loop in terms of the line that it reads. -/
def take (s : Loading) : Entry → Option Loading
  | .heading name => s.bracketLine name
  | .setting setting => s.keyValueLine setting.key setting.copied
  | .other => some s

end Loading

theorem getKeyValueDhQdKg_bytes (line : Line) :
    getKeyValueDhQdKg line.bytes =
      match getStringBeforeDhQdKg line.content, getStringBehindChar line.content 61 with
      | some key, some behind => some (key, Setting.copied ⟨key, behind, line.ended⟩)
      | _, _ => none := by
  have lineEnd : (61 : UInt8) ∉ if line.ended then [(10 : UInt8)] else [] := by
    split <;> decide
  have behind := @getStringBehindChar_pad line.content [] _ 61 (by simp) lineEnd
  have before := @getStringBeforeChar_pad line.content [] _ 61 (by simp) lineEnd
  rw [List.nil_append] at behind before
  simp only [getKeyValueDhQdKg, getStringBehindDhQdKg, getStringBeforeDhQdKg, Line.bytes, behind,
    before, Setting.copied, List.nil_append, Option.map_id']
  cases getStringBeforeChar line.content 61 <;> cases getStringBehindChar line.content 61 <;> rfl

/-- A line that is not a comment makes the turn of its entry. -/
theorem readLine_trim (s : Loading) {line : Line} (plain : ¬ line.IsComment) :
    s.readLine (trim line.bytes) = s.take line.entry := by
  have brackets := @getStringBetweenZkh_pad line.content [] (if line.ended then [10] else [])
    (by simp) (by split <;> decide) (by split <;> decide)
  rw [List.nil_append] at brackets
  rw [Loading.readLine, getStringBetweenZkh_trim, getKeyValueDhQdKg_trim, getKeyValueDhQdKg_bytes,
    Line.bytes, brackets, Line.entry, if_neg plain]
  cases getStringBetweenZkh line.content with
  | some name => rfl
  | none =>
      cases getStringBeforeDhQdKg line.content <;>
        cases getStringBehindChar line.content 61 <;> rfl

/-- Spaces at the end do not change the first byte, unless it is one of them. -/
theorem head?_trimBehind {source : List UInt8} {byte : UInt8} (visible : byte ≠ 32) :
    (trimBehind source).head? = some byte ↔ source.head? = some byte := by
  obtain ⟨behind, sourceEq, -⟩ := exists_trimBehind source
  nth_rewrite 2 [sourceEq]
  cases trimBehind source with
  | nil =>
      constructor
      · nofun
      · intro first
        have space := List.eq_of_mem_replicate (List.mem_of_mem_head? first)
        exact absurd space visible
  | cons first rest => rfl

theorem notMem_trim {source : List UInt8} {byte : UInt8} (absent : byte ∉ source) :
    byte ∉ trim source := by
  obtain ⟨before, behind, sourceEq, -⟩ := trimmed_trim source
  intro member
  apply absent
  rw [sourceEq]
  simp [member]

theorem notMem_bytes {line : Line} {byte : UInt8} (absent : byte ∉ line.content)
    (visible : byte ≠ 10) : byte ∉ line.bytes := by
  unfold Line.bytes
  split <;> simp [absent, visible]

/-- The line end is not the first byte of a comment. -/
theorem head?_trimBefore_bytes (line : Line) :
    (trimBefore line.bytes).head? = some 35 ↔ line.IsComment := by
  unfold Line.IsComment Line.bytes trimBefore
  rw [List.dropWhile_append]
  cases line.content.dropWhile (· == 32) with
  | nil =>
      cases line.ended with
      | true => decide
      | false => decide
  | cons first rest => rfl

/-- The comparison with `"#"` finds the comments. -/
theorem strncmpEqual_comment {line : Line} (clean : 0 ∉ line.content) :
    strncmpEqual (trim line.bytes) (literal "#") 1 = true ↔ line.IsComment := by
  have cleanTrim : 0 ∉ trim line.bytes := notMem_trim (notMem_bytes clean (by decide))
  have heads : (trim line.bytes).head? = some 35 ↔ line.IsComment := by
    rw [trim, head?_trimBehind (by decide), head?_trimBefore_bytes]
  rw [← heads, strncmpEqual, text_eq_self cleanTrim]
  cases trim line.bytes with
  | nil => decide
  | cons first rest =>
      have sign : text (literal "#") = [35] := by decide
      simp [sign]

/-- Lines that are not given out have no effect, so that the run is that of the entries. -/
theorem foldlM_readLine {lines : List Line} (clean : ∀ line ∈ lines, 0 ∉ line.content)
    (s : Loading) :
    (wileReadLineFromConfFile (lines.map Line.bytes)).foldlM Loading.readLine s =
      (lines.map Line.entry).foldlM Loading.take s := by
  induction lines generalizing s with
  | nil => rfl
  | cons line lines ih =>
      rw [List.forall_mem_cons] at clean
      obtain ⟨cleanLine, later⟩ := clean
      have textEq : text line.bytes = line.bytes :=
        text_eq_self (notMem_bytes cleanLine (by decide))
      have rest := ih later
      simp only [wileReadLineFromConfFile] at rest ⊢
      simp only [List.map_cons, List.foldlM_cons, textEq]
      by_cases comment : line.IsComment
      · have sign := (strncmpEqual_comment cleanLine).mpr comment
        rw [List.filter_cons_of_neg (by simp [sign]), Line.entry, if_pos comment]
        exact rest s
      · have noSign := mt (strncmpEqual_comment cleanLine).mp comment
        rw [Bool.not_eq_true] at noSign
        have turn := readLine_trim s comment
        by_cases blank : trim line.bytes = literal "\n"
        · have unchanged : s.take line.entry = some s := by
            rw [← turn, blank]
            rfl
          rw [List.filter_cons_of_neg (by simp [blank]), unchanged]
          exact rest s
        · rw [List.filter_cons_of_pos (by simp [noSign, blank]), List.foldlM_cons, turn]
          congr 1
          funext s'
          exact rest s'

/-! ## The run over the sections -/

/-- The variables within a section. -/
def within (list : List ProcessInfo) (s : Section) : Loading :=
  ⟨list, some { sProcessLabel := s.name, sBinPathName := s.readPath }, s.readNumber⟩

section Run

variable {list result : List ProcessInfo} {s : Section} {setting : Setting}
  {entries : List Entry}

theorem insertNodes_eq (node : ProcessInfo) (count : Nat) (list : List ProcessInfo) :
    insertNodes node count list = list ++ List.replicate count node := by
  induction count generalizing list with
  | zero => simp [insertNodes]
  | succ count ih =>
      rw [insertNodes, ih, List.append_assoc, List.replicate_succ]
      rfl

theorem insertLoop_within : (within list s).insertLoop = some (list ++ s.inserted) := by
  unfold Loading.insertLoop within Section.inserted
  split
  · rename_i none
    rw [Int.toNat_of_nonpos none]
    simp
  · simp [insertNodes_eq]

/-- A section line puts the nodes of the section before it into the list. -/
theorem take_heading (name : List UInt8) :
    (within list s).take (.heading name) =
      if name.length < 257 then some (within (list ++ s.inserted) ⟨name, []⟩) else none := by
  rw [Loading.take, Loading.bracketLine, insertLoop_within]
  by_cases short : name.length < 257
  · simp only [strcpy, if_pos short]
    rfl
  · simp [strcpy, short]

theorem last_add (accepts : List UInt8 → Bool) :
    (s.add setting).last accepts =
      if accepts setting.key then some setting else s.last accepts := by
  unfold Section.last Section.add
  rw [List.reverse_append, List.reverse_singleton, List.singleton_append, List.find?_cons]
  cases accepts setting.key <;> rfl

theorem readNumber_add : (s.add setting).readNumber =
    if takesNumber setting.key then atoi setting.copied else s.readNumber := by
  rw [Section.readNumber, last_add]
  split <;> rfl

theorem readPath_add : (s.add setting).readPath =
    if takesPath setting.key then setting.copied else s.readPath := by
  rw [Section.readPath, last_add]
  split <;> rfl

/-- A key line within a section, by the key that it is taken for. -/
theorem take_setting_cases (clean : 0 ∉ setting.key) :
    (within list s).take (.setting setting) =
      if takesPath setting.key ∧ 256 < setting.copied.length then none
      else some (within list (s.add setting)) := by
  have number : text (literal "PROCESSNUM") = literal "PROCESSNUM" := by decide
  have path : text (literal "BINPATHNAME") = literal "BINPATHNAME" := by decide
  have label : (s.add setting).name = s.name := rfl
  simp only [Loading.take, Loading.keyValueLine, strncmpEqual_length clean, number, path]
  rw [within, within, readNumber_add, readPath_add, label, takesPath, takesNumber]
  cases setting.key.isPrefixOf (literal "PROCESSNUM") with
  | true => simp
  | false =>
      cases setting.key.isPrefixOf (literal "BINPATHNAME") with
      | false => simp
      | true =>
          by_cases long : 256 < setting.copied.length
          · simp [strcpy, long, show ¬ setting.copied.length < 257 by omega]
          · simp [strcpy, long, show setting.copied.length < 257 by omega]

/-- A setting that fits is taken into the section. -/
theorem take_setting (clean : 0 ∉ setting.key) (fits : (s.add setting).Fits) :
    (within list s).take (.setting setting) = some (within list (s.add setting)) := by
  rw [take_setting_cases clean, if_neg]
  rintro ⟨taken, long⟩
  have short := fits.paths setting (by simp [Section.add]) taken
  omega

theorem take_setting_unfit (clean : 0 ∉ setting.key) (fits : s.Fits)
    (unfit : ¬ (s.add setting).Fits) : (within list s).take (.setting setting) = none := by
  rw [take_setting_cases clean, if_pos]
  by_contra short
  apply unfit
  refine ⟨fits.name, fun other member taken => ?_⟩
  rcases List.mem_append.mp member with old | new
  · exact fits.paths other old taken
  · rw [List.mem_singleton.mp new] at taken ⊢
    exact not_lt.mp fun long => short ⟨taken, long⟩

theorem Section.Fits.of_add (fits : (s.add setting).Fits) : s.Fits where
  name := fits.name
  paths a member := fits.paths a (List.mem_append_left _ member)

/-- The current section is the beginning of the first one. -/
theorem fits_of_sectionsFrom (fits : ∀ t ∈ sectionsFrom s entries, t.Fits) : s.Fits := by
  induction entries generalizing s with
  | nil => exact fits s (by simp [sectionsFrom])
  | cons entry entries ih =>
      cases entry with
      | heading name => exact fits s (by simp [sectionsFrom])
      | setting setting => exact (ih fits).of_add
      | other => exact ih fits

/-- What a run from within a section does. -/
theorem run_within (clean : ∀ setting, Entry.setting setting ∈ entries → 0 ∉ setting.key)
    (fits : s.Fits) :
    (entries.foldlM Loading.take (within list s)).bind Loading.finish = some result ↔
      (∀ t ∈ sectionsFrom s entries, t.Fits) ∧
        result = list ++ (sectionsFrom s entries).flatMap Section.inserted := by
  induction entries generalizing s list with
  | nil =>
      have finished : (within list s).finish = some (list ++ s.inserted) := insertLoop_within
      simp [sectionsFrom, fits, finished, eq_comm]
  | cons entry entries ih =>
      have later : ∀ setting, Entry.setting setting ∈ entries → 0 ∉ setting.key :=
        fun setting member => clean setting (List.mem_cons_of_mem _ member)
      rw [List.foldlM_cons]
      cases entry with
      | heading name =>
          rw [take_heading]
          by_cases short : name.length < 257
          · have fitsName : (⟨name, []⟩ : Section).Fits := ⟨Nat.le_of_lt_succ short, by simp⟩
            rw [if_pos short]
            refine (ih later fitsName).trans ?_
            simp [sectionsFrom, fits]
          · rw [if_neg short]
            constructor
            · nofun
            · rintro ⟨all, -⟩
              have fitsName := @fits_of_sectionsFrom ⟨name, []⟩ entries fun t member =>
                all t (List.mem_cons_of_mem _ member)
              exact absurd (Nat.lt_succ_of_le fitsName.name) short
      | setting setting =>
          have cleanKey := clean setting (by simp)
          by_cases fitsAdded : (s.add setting).Fits
          · rw [take_setting cleanKey fitsAdded]
            exact ih later fitsAdded
          · rw [take_setting_unfit cleanKey fits fitsAdded]
            constructor
            · nofun
            · rintro ⟨all, -⟩
              exfalso
              exact fitsAdded (@fits_of_sectionsFrom (s.add setting) entries all)
      | other => exact ih later fits

/-- What a run does whose key lines follow a section line. -/
theorem run_start (clean : ∀ setting, Entry.setting setting ∈ entries → 0 ∉ setting.key)
    (placed : ∀ before setting after, entries = before ++ .setting setting :: after →
      ∃ name, Entry.heading name ∈ before) :
    (entries.foldlM Loading.take ⟨list, none, 0⟩).bind Loading.finish = some result ↔
      (∀ t ∈ sections entries, t.Fits) ∧
        result = list ++ (sections entries).flatMap Section.inserted := by
  induction entries with
  | nil =>
      have finished : (⟨list, none, 0⟩ : Loading).finish = some list := rfl
      simp [sections, finished, eq_comm]
  | cons entry entries ih =>
      have later : ∀ setting, Entry.setting setting ∈ entries → 0 ∉ setting.key :=
        fun setting member => clean setting (List.mem_cons_of_mem _ member)
      rw [List.foldlM_cons]
      cases entry with
      | setting setting =>
          obtain ⟨name, none⟩ := placed [] setting entries rfl
          cases none
      | other =>
          refine ih later fun before setting after split => ?_
          obtain ⟨name, member⟩ := placed (.other :: before) setting after (by rw [split]; rfl)
          exact ⟨name, by simpa using member⟩
      | heading name =>
          have taken : (⟨list, none, 0⟩ : Loading).take (.heading name) =
              if name.length < 257 then some (within list ⟨name, []⟩) else none := by
            by_cases short : name.length < 257
            · simp only [Loading.take, Loading.bracketLine, strcpy, if_pos short]
              rfl
            · simp [Loading.take, Loading.bracketLine, strcpy, short]
          rw [taken]
          by_cases short : name.length < 257
          · rw [if_pos short]
            exact run_within later ⟨Nat.le_of_lt_succ short, by simp⟩
          · rw [if_neg short]
            constructor
            · nofun
            · rintro ⟨all, -⟩
              have fitsName := @fits_of_sectionsFrom ⟨name, []⟩ entries all
              exact absurd (Nat.lt_succ_of_le fitsName.name) short

end Run

/-! ## Cuts between sections -/

/-- Nothing follows, or a section does. -/
def Boundary (entries : List Entry) : Prop :=
  ∀ next ∈ entries.head?, ∃ name, next = .heading name

theorem Boundary.of_append {first second : List Entry} (cut : Boundary (first ++ second)) :
    Boundary first := by
  cases first with
  | nil => nofun
  | cons entry rest => exact cut

theorem boundary_map {lines : List Line} :
    Boundary (lines.map Line.entry) ↔
      ∀ next ∈ lines.head?, ∃ name, next.entry = .heading name := by
  cases lines <;> simp [Boundary]

theorem sectionsFrom_append {s : Section} {before after : List Entry} (cut : Boundary after) :
    sectionsFrom s (before ++ after) = sectionsFrom s before ++ sections after := by
  induction before generalizing s with
  | nil =>
      cases after with
      | nil => rfl
      | cons entry after =>
          obtain ⟨name, rfl⟩ := cut entry rfl
          rfl
  | cons entry before ih =>
      cases entry with
      | heading name => exact congrArg (s :: ·) ih
      | setting setting => exact ih
      | other => exact ih

theorem sections_append {before after : List Entry} (cut : Boundary after) :
    sections (before ++ after) = sections before ++ sections after := by
  induction before with
  | nil => rfl
  | cons entry before ih =>
      cases entry with
      | heading name => exact sectionsFrom_append cut
      | setting setting => exact ih
      | other => exact ih

/-- A section other than the current one lies between two cuts. -/
theorem exists_cut_within {s t : Section} {entries : List Entry}
    (member : t ∈ sectionsFrom s entries) :
    (∃ before after, entries = before ++ after ∧ Boundary after ∧ sectionsFrom s before = [t]) ∨
      ∃ first second after, entries = first ++ second ++ after ∧ Boundary (second ++ after) ∧
        Boundary after ∧ sections second = [t] := by
  induction entries generalizing s with
  | nil =>
      left
      exact ⟨[], [], rfl, nofun, by simp_all [sectionsFrom]⟩
  | cons entry entries ih =>
      cases entry with
      | heading name =>
          rcases List.mem_cons.mp member with rfl | inRest
          · left
            exact ⟨[], _, rfl, fun next found => ⟨name, by simp_all⟩, rfl⟩
          · right
            rcases ih inRest with ⟨before, after, rfl, cut, single⟩ |
              ⟨first, second, after, rfl, cuts⟩
            · exact ⟨[], .heading name :: before, after, rfl, fun next found =>
                ⟨name, by simp_all⟩, cut, single⟩
            · exact ⟨.heading name :: first, second, after, rfl, cuts⟩
      | setting setting =>
          rcases ih member with ⟨before, after, rfl, cut, single⟩ |
            ⟨first, second, after, rfl, cuts⟩
          · exact Or.inl ⟨.setting setting :: before, after, rfl, cut, single⟩
          · exact Or.inr ⟨.setting setting :: first, second, after, rfl, cuts⟩
      | other =>
          rcases ih member with ⟨before, after, rfl, cut, single⟩ |
            ⟨first, second, after, rfl, cuts⟩
          · exact Or.inl ⟨.other :: before, after, rfl, cut, single⟩
          · exact Or.inr ⟨.other :: first, second, after, rfl, cuts⟩

theorem exists_cut {t : Section} {entries : List Entry} (member : t ∈ sections entries) :
    ∃ first second after, entries = first ++ second ++ after ∧ Boundary (second ++ after) ∧
      Boundary after ∧ sections second = [t] := by
  induction entries with
  | nil => cases member
  | cons entry entries ih =>
      cases entry with
      | heading name =>
          rcases exists_cut_within member with ⟨before, after, rfl, cut, single⟩ |
            ⟨first, second, after, rfl, cuts⟩
          · exact ⟨[], .heading name :: before, after, rfl, fun next found =>
              ⟨name, by simp_all⟩, cut, single⟩
          · exact ⟨.heading name :: first, second, after, rfl, cuts⟩
      | setting setting =>
          obtain ⟨first, second, after, rfl, cuts⟩ := ih member
          exact ⟨.setting setting :: first, second, after, rfl, cuts⟩
      | other =>
          obtain ⟨first, second, after, rfl, cuts⟩ := ih member
          exact ⟨.other :: first, second, after, rfl, cuts⟩

theorem mem_of_mem_sectionsFrom {s t : Section} {entries : List Entry} {setting : Setting}
    (member : t ∈ sectionsFrom s entries) (inside : setting ∈ t.settings) :
    setting ∈ s.settings ∨ .setting setting ∈ entries := by
  induction entries generalizing s with
  | nil =>
      rw [List.mem_singleton.mp member] at inside
      exact Or.inl inside
  | cons entry entries ih =>
      cases entry with
      | heading name =>
          rcases List.mem_cons.mp member with rfl | later
          · exact Or.inl inside
          · rcases ih later with none | found
            · cases none
            · exact Or.inr (List.mem_cons_of_mem _ found)
      | setting added =>
          rcases ih member with found | found
          · rcases List.mem_append.mp found with old | new
            · exact Or.inl old
            · rw [List.mem_singleton.mp new]
              exact Or.inr List.mem_cons_self
          · exact Or.inr (List.mem_cons_of_mem _ found)
      | other => exact (ih member).imp_right (List.mem_cons_of_mem _)

/-- The settings of the sections are those of the entries. -/
theorem mem_of_mem_sections {t : Section} {entries : List Entry} {setting : Setting}
    (member : t ∈ sections entries) (inside : setting ∈ t.settings) :
    .setting setting ∈ entries := by
  induction entries with
  | nil => cases member
  | cons entry entries ih =>
      cases entry with
      | heading name =>
          rcases mem_of_mem_sectionsFrom member inside with none | found
          · cases none
          · exact List.mem_cons_of_mem _ found
      | setting added => exact List.mem_cons_of_mem _ (ih member)
      | other => exact List.mem_cons_of_mem _ (ih member)

/-- A setting has only bytes of its line. -/
theorem notMem_setting {line : Line} {setting : Setting} {byte : UInt8}
    (found : line.entry = .setting setting) (absent : byte ∉ line.content) :
    byte ∉ setting.key ∧ byte ∉ setting.behind := by
  unfold Line.entry at found
  split at found
  · cases found
  · split at found
    · cases found
    · split at found
      · rename_i key behind keyEq behindEq
        cases found
        obtain ⟨before, contentEq, -⟩ := getStringBehindChar_eq_some_iff.mp behindEq
        obtain ⟨name, value, assigned, trimmed⟩ := getStringBeforeDhQdKg_eq_some_iff.mp keyEq
        constructor
        · rw [← trimmed_iff.mp trimmed]
          apply notMem_trim
          rw [assigned.1] at absent
          exact fun member => absent (List.mem_append_left _ member)
        · rw [contentEq] at absent
          exact fun member => absent (by simp [member])
      · cases found

/-! ## The sections that agree -/

section Agreement

variable {s : Section} {setting : Setting}

/-- The line end does not change a number. -/
theorem atoi_copied (clean : 0 ∉ setting.behind) : atoi setting.copied = atoi setting.value := by
  have trimmed : ∀ source : List UInt8, 0 ∉ source → atoi (trim source) = atoi source := by
    intro source cleanSource
    obtain ⟨before, behind, sourceEq, -⟩ := trimmed_trim source
    have padded := @atoi_pad (List.replicate before 32) (trim source) (List.replicate behind 32)
      (notMem_trim cleanSource) (by simp [isSpace]) (by simp [isSpace])
    rwa [← sourceEq, eq_comm] at padded
  have lineEnd : ∀ byte ∈ if setting.ended then [(10 : UInt8)] else [], isSpace byte = true := by
    cases setting.ended with
    | true =>
        intro byte member
        rw [List.mem_singleton.mp member]
        rfl
    | false =>
        intro byte member
        cases member
  have cleanAll : 0 ∉ setting.behind ++ if setting.ended then [(10 : UInt8)] else [] := by
    cases setting.ended <;> simp [clean]
  rw [Setting.copied, Setting.value, trimmed _ cleanAll, trimmed _ clean]
  exact @atoi_pad [] setting.behind _ clean (by simp) lineEnd

/-- With a line end, what is copied ends with it. -/
theorem copied_eq_iff {value : List UInt8} (singleValue : 10 ∉ value) :
    setting.copied = value ↔ setting.ended = false ∧ setting.value = value := by
  unfold Setting.copied Setting.value
  cases setting.ended with
  | false => simp
  | true =>
      simp only [if_true, Bool.true_eq_false, false_and, iff_false]
      rintro rfl
      obtain ⟨before, behind, sourceEq, -⟩ := trimmed_trim (setting.behind ++ [10])
      have member : 10 ∈ setting.behind ++ [(10 : UInt8)] := by simp
      rw [sourceEq] at member
      simp [singleValue] at member

theorem mem_of_last {accepts : List UInt8 → Bool} (found : s.last accepts = some setting) :
    setting ∈ s.settings :=
  List.mem_reverse.mp (List.mem_of_find?_eq_some found)

theorem notMem_binpathname (single : ∀ setting ∈ s.settings, 10 ∉ setting.behind) :
    10 ∉ s.binpathname := by
  unfold Section.binpathname
  cases found : s.last (· == literal "BINPATHNAME") with
  | none => nofun
  | some setting => exact notMem_trim (single setting (mem_of_last found))

theorem last_exact_eq_none (absent : s.last takesPath = none) :
    s.last (· == literal "BINPATHNAME") = none := by
  rw [Section.last, List.find?_eq_none] at absent ⊢
  intro setting member exact_
  apply absent setting member
  rw [eq_of_beq exact_]
  decide

/-- The nodes that are put into the list are those that the section asks for. -/
theorem inserted_eq_nodes_iff (clean : ∀ setting ∈ s.settings, 0 ∉ setting.behind)
    (single : ∀ setting ∈ s.settings, 10 ∉ setting.behind) (fits : s.Fits) :
    s.inserted = s.nodes ↔ s.Agrees := by
  have number : s.readNumber =
      (s.last takesNumber).elim 0 fun setting => atoi setting.value := by
    unfold Section.readNumber
    cases found : s.last takesNumber with
    | none => rfl
    | some setting => exact atoi_copied (clean setting (mem_of_last found))
  have path : s.readPath = s.binpathname ↔ ∀ setting, s.last takesPath = some setting →
      setting.ended = false ∧ setting.value = s.binpathname := by
    unfold Section.readPath
    cases found : s.last takesPath with
    | none => simp [Section.binpathname, last_exact_eq_none found]
    | some setting =>
        simpa using @copied_eq_iff setting _ (notMem_binpathname single)
  rw [Section.inserted, Section.nodes, List.replicate_inj, number]
  constructor
  · rintro ⟨sameNumber, noNode | sameNode⟩
    · refine ⟨fits, sameNumber, fun positive => ?_⟩
      omega
    · exact ⟨fits, sameNumber, fun _ => path.mp (ProcessInfo.mk.inj sameNode).2.2⟩
  · intro agrees
    refine ⟨agrees.number, ?_⟩
    by_cases positive : 0 < s.processnum
    · right
      rw [path.mpr (agrees.path positive)]
    · left
      have same := agrees.number
      omega

end Agreement

/-! ## The whole file -/

section Whole

variable {file : List UInt8} {lines : List Line} {list : List ProcessInfo}

theorem forall_fileLines {p : List UInt8 → Prop} :
    (∀ line ∈ fileLines file, p line.content) ↔
      (∀ line ∈ (splitLines 10 file).1, p line) ∧
        ((splitLines 10 file).2 ≠ [] → p (splitLines 10 file).2) := by
  unfold fileLines
  by_cases empty : (splitLines 10 file).2 = []
  · simp [empty]
  · simp [empty, or_imp, forall_and]

theorem fileLines_single : ∀ line ∈ fileLines file, 10 ∉ line.content :=
  have ⟨unstopped, lastUnstopped⟩ := stop_notMem_splitLines 10 file
  forall_fileLines.mpr ⟨unstopped, fun _ => lastUnstopped⟩

theorem fileLines_clean (clean : 0 ∉ file) : ∀ line ∈ fileLines file, 0 ∉ line.content := by
  rw [← joinLines_splitLines 10 file, notMem_joinLines (by decide)] at clean
  exact forall_fileLines.mpr ⟨clean.1, fun _ => clean.2⟩

/-- The buffer of `fgets` holds the lines. -/
theorem whileReadLineFromFile_eq (short : ∀ line ∈ fileLines file, line.content.length < 4096) :
    whileReadLineFromFile file = (fileLines file).map Line.bytes := by
  obtain ⟨unstopped, lastUnstopped⟩ := stop_notMem_splitLines 10 file
  obtain ⟨shortLines, shortLast⟩ := (@forall_fileLines file (·.length < 4096)).mp short
  have lawful : ∀ line ∈ (splitLines 10 file).1, 10 ∉ line ∧ line.length < 40960 := by
    intro line member
    have := shortLines line member
    exact ⟨unstopped line member, by omega⟩
  have shortEnd : (splitLines 10 file).2.length ≤ 40960 := by
    by_cases empty : (splitLines 10 file).2 = []
    · simp [empty]
    · have := shortLast empty
      omega
  have read := @pieces_joinLines _ _ 10 40960 _ (splitLines 10 file).2 lawful
  rw [joinLines_splitLines, pieces_short lastUnstopped shortEnd] at read
  rw [whileReadLineFromFile, read, fileLines, List.map_append, List.map_map]
  congr 1
  split
  · rfl
  · simp [Line.bytes]

/-- What the loading makes of lines whose key lines follow a section line. -/
theorem insertLines_iff (clean : ∀ line ∈ lines, 0 ∉ line.content)
    (placed : ∀ before line after setting, lines = before ++ line :: after →
      line.entry = .setting setting → ∃ heading ∈ before, ∃ name, heading.entry = .heading name)
    {result : List ProcessInfo} :
    insertLines (lines.map Line.bytes) list = some result ↔
      (∀ t ∈ sections (lines.map Line.entry), t.Fits) ∧
        result = list ++ (sections (lines.map Line.entry)).flatMap Section.inserted := by
  rw [insertLines, foldlM_readLine clean]
  apply run_start
  · intro setting member
    obtain ⟨line, inside, found⟩ := List.mem_map.mp member
    exact (notMem_setting found (clean line inside)).1
  · intro before setting after split
    obtain ⟨beforeLines, rest, rfl, rfl, restEq⟩ := List.map_eq_append_iff.mp split
    obtain ⟨line, afterLines, rfl, found, -⟩ := List.map_eq_cons_iff.mp restEq
    obtain ⟨heading, member, name, isHeading⟩ :=
      placed beforeLines line afterLines setting rfl found
    exact ⟨name, List.mem_map.mpr ⟨heading, member, isHeading⟩⟩

theorem settings_clean (clean : 0 ∉ file) {s : Section}
    (member : s ∈ sections ((fileLines file).map Line.entry)) :
    ∀ setting ∈ s.settings, 0 ∉ setting.behind ∧ 10 ∉ setting.behind := by
  intro setting inside
  obtain ⟨line, inFile, found⟩ := List.mem_map.mp (mem_of_mem_sections member inside)
  exact ⟨(notMem_setting found (fileLines_clean clean line inFile)).2,
    (notMem_setting found (fileLines_single line inFile)).2⟩

theorem agrees_iff (clean : 0 ∉ file) {s : Section}
    (member : s ∈ sections ((fileLines file).map Line.entry)) (fits : s.Fits) :
    s.inserted = s.nodes ↔ s.Agrees := by
  have settings := settings_clean clean member
  exact inserted_eq_nodes_iff (fun setting inside => (settings setting inside).1)
    (fun setting inside => (settings setting inside).2) fits

/-- A beginning of the file is as lawful as the whole of it. -/
theorem insertLines_before (conf : ConfFile file) (list : List ProcessInfo)
    {before after : List Line} (cut : fileLines file = before ++ after) :
    insertLines (before.map Line.bytes) list = some (list ++ configured before) ↔
      (∀ t ∈ sections (before.map Line.entry), t.Fits) ∧
        (sections (before.map Line.entry)).flatMap Section.nodes =
          (sections (before.map Line.entry)).flatMap Section.inserted := by
  have clean := fileLines_clean conf.clean
  rw [insertLines_iff (fun line member => clean line (cut ▸ List.mem_append_left _ member)),
    configured, List.append_cancel_left_eq]
  intro first line second setting split found
  refine conf.placed first line (second ++ after) setting ?_ found
  rw [cut, split, List.append_assoc, List.cons_append]

end Whole

/-- In a file that begins with a section line all key lines follow it. -/
theorem ConfFile.of_heading {file : List UInt8} {first : Line} {rest : List Line}
    {name : List UInt8} (clean : 0 ∉ file) (lines : fileLines file = first :: rest)
    (short : ∀ line ∈ first :: rest, line.content.length < 4096)
    (heading : first.entry = .heading name) : ConfFile file where
  clean := clean
  short := lines ▸ short
  placed := by
    intro before line after setting split found
    rw [lines] at split
    cases before with
    | nil =>
        cases split
        rw [heading] at found
        cases found
    | cons other before =>
        cases split
        exact ⟨first, List.mem_cons_self, name, heading⟩

/-- A section whose last line has no line end. -/
def unendedFile : List UInt8 := literal "[ls]\nPROCESSNUM=2\nBINPATHNAME= ls"

/-- A section as in the configuration of the repository. -/
def endedFile : List UInt8 := literal "[cat]\nPROCESSNUM=2\nBINPATHNAME=cat\n"

end FrameCode.MonitorConfFile
