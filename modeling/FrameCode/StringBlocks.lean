import FrameCode.CheckedCopy
import FrameCode.CText

/-!
# C strings in blocks of memory

The string functions of the C library on blocks of bytes.  Reading a string that has no terminator
within its block has no result, and neither has writing beyond the end of a block.
-/

namespace FrameCode.StringBlocks

open CText CheckedCopy

/-! ## The functions -/

/-- The string that begins at an offset of a block. -/
def string (block : List UInt8) (offset : Nat) : Option (List UInt8) :=
  if 0 ∈ block.drop offset then some (text (block.drop offset)) else none

def strlen (block : List UInt8) : Option Nat := (string block 0).map List.length

def memset (block : List UInt8) (offset : Nat) (byte : UInt8) (count : Nat) :
    Option (List UInt8) :=
  write block offset (List.replicate count byte)

def strcpy (block : List UInt8) (offset : Nat) (source : List UInt8) : Option (List UInt8) :=
  write block offset (source ++ [0])

def strcat (block source : List UInt8) : Option (List UInt8) := do
  let length ← strlen block
  strcpy block length source

/-- A source that is too short is filled up with NUL bytes. -/
def strncpy (block : List UInt8) (offset : Nat) (source : List UInt8) (count : Nat) :
    Option (List UInt8) :=
  write block offset (source.take count ++ List.replicate (count - source.length) 0)

/-- A block that `malloc` delivers and `memset` clears. -/
def cleared (size : Nat) : List UInt8 := List.replicate size 0

/-! ## Strings that a block holds -/

/-- The block begins with the string and its terminator. -/
structure Holds (block s : List UInt8) : Prop where
  clean : 0 ∉ s
  begins : s ++ [0] <+: block

section Holds

variable {block s source : List UInt8} {offset : Nat}

theorem Holds.exists_eq (holds : Holds block s) : ∃ rest, block = s ++ 0 :: rest := by
  obtain ⟨rest, whole⟩ := holds.begins
  exact ⟨rest, by rw [← whole, List.append_assoc, List.singleton_append]⟩

theorem holds_append (clean : 0 ∉ s) (rest : List UInt8) : Holds (s ++ 0 :: rest) s :=
  ⟨clean, ⟨rest, by rw [List.append_assoc, List.singleton_append]⟩⟩

theorem Holds.length_lt (holds : Holds block s) : s.length < block.length := by
  have shorter := holds.begins.length_le
  rwa [List.length_append, List.length_singleton] at shorter

/-- A string is read from any place up to its terminator. -/
theorem Holds.string_eq (holds : Holds block s) (inside : offset ≤ s.length) :
    string block offset = some (s.drop offset) := by
  obtain ⟨rest, rfl⟩ := holds.exists_eq
  have clean : ∀ byte ∈ s.drop offset, byte ≠ 0 := by
    rintro byte member rfl
    exact holds.clean (List.mem_of_mem_drop member)
  rw [string, List.drop_append_of_le_length inside, text_append_nul clean, if_pos (by simp)]

theorem Holds.strlen_eq (holds : Holds block s) : strlen block = some s.length := by
  rw [strlen, holds.string_eq (Nat.zero_le _), List.drop_zero, Option.map_some]

theorem Holds.getElem?_eq (holds : Holds block s) (inside : offset < s.length) :
    block[offset]? = s[offset]? := by
  obtain ⟨rest, rfl⟩ := holds.exists_eq
  exact List.getElem?_append_left inside

theorem Holds.terminator (holds : Holds block s) : block[s.length]? = some 0 := by
  obtain ⟨rest, rfl⟩ := holds.exists_eq
  simp

theorem holds_iff : Holds block s ↔ string block 0 = some s := by
  constructor
  · intro holds
    rw [holds.string_eq (Nat.zero_le _), List.drop_zero]
  · intro read
    rw [string, List.drop_zero] at read
    split at read
    · rename_i terminated
      obtain ⟨first, rest, rfl, clean⟩ := List.eq_append_cons_of_mem terminated
      rw [text_append_nul fun byte member zero => clean (zero ▸ member)] at read
      cases read
      exact holds_append clean rest
    · cases read

/-- A block holds at most one string. -/
theorem Holds.unique {other : List UInt8} (holds : Holds block s) (also : Holds block other) :
    s = other :=
  Option.some.inj ((holds_iff.mp holds).symm.trans (holds_iff.mp also))

end Holds

/-! ## What the functions do -/

section Functions

variable {block source : List UInt8}

theorem exists_memset (block : List UInt8) {offset count : Nat} (byte : UInt8)
    (within : offset + count ≤ block.length) :
    ∃ after, memset block offset byte count = some after ∧ after.length = block.length := by
  apply exists_write
  rwa [List.length_replicate]

/-- Copying to the beginning of a block. -/
theorem strcpy_eq (room : source.length < block.length) :
    strcpy block 0 source = some (source ++ 0 :: block.drop (source.length + 1)) := by
  have within : 0 + (source ++ [0]).length ≤ block.length := by
    rw [List.length_append, List.length_singleton]
    omega
  rw [strcpy, write, if_pos within, List.take_zero, List.nil_append, Nat.zero_add,
    List.length_append, List.length_singleton, List.append_assoc, List.singleton_append]

theorem exists_strcpy (block : List UInt8) (clean : 0 ∉ source)
    (room : source.length < block.length) :
    ∃ after, strcpy block 0 source = some after ∧ Holds after source ∧
      after.length = block.length := by
  refine ⟨_, strcpy_eq room, holds_append clean _, ?_⟩
  rw [List.length_append, List.length_cons, List.length_drop]
  omega

/-- Copying to a block that is cleared before. -/
theorem exists_overwrite (block : List UInt8) {count : Nat} (within : count ≤ block.length)
    (clean : 0 ∉ source) (room : source.length < block.length) :
    ∃ zeroed after, memset block 0 0 count = some zeroed ∧ strcpy zeroed 0 source = some after ∧
      Holds after source ∧ after.length = block.length := by
  obtain ⟨zeroed, set, length⟩ := @exists_memset block 0 count 0 (by omega)
  obtain ⟨after, copied, held, length'⟩ := exists_strcpy zeroed clean (by omega)
  exact ⟨zeroed, after, set, copied, held, length'.trans length⟩

theorem string_append_cleared {spare : Nat} (clean : 0 ∉ source) (room : 0 < spare) :
    string (source ++ cleared spare) 0 = some source := by
  obtain ⟨spare, rfl⟩ := Nat.exists_eq_succ_of_ne_zero room.ne'
  rw [← holds_iff, cleared, List.replicate_succ]
  exact holds_append clean _

/-- Appending to a string in front of NUL bytes. -/
theorem strcat_append_cleared {s : List UInt8} {spare : Nat} (clean : 0 ∉ s) (room : 0 < spare) :
    strcat (s ++ cleared spare) source =
      if source.length < spare then some (s ++ source ++ cleared (spare - source.length))
      else none := by
  rw [strcat, strlen, string_append_cleared clean room, Option.map_some, Option.bind_eq_bind,
    Option.bind_some, strcpy]
  by_cases fits : source.length < spare
  · have within : (source ++ [0]).length ≤ spare := by
      rw [List.length_append, List.length_singleton]
      omega
    have left : spare - source.length = spare - (source ++ [0]).length + 1 := by
      rw [List.length_append, List.length_singleton]
      omega
    rw [if_pos fits, cleared, write_behind s (source ++ [0]) within, cleared, left,
      List.replicate_succ]
    simp
  · rw [if_neg fits, write, if_neg]
    simp only [List.length_append, List.length_singleton, cleared, List.length_replicate]
    omega

/-- Calls of `strcat` one after the other. -/
theorem foldlM_strcat {s : List UInt8} {spare : Nat} (clean : 0 ∉ s) (room : 0 < spare)
    {sources : List (List UInt8)} (cleanSources : ∀ source ∈ sources, 0 ∉ source) :
    sources.foldlM strcat (s ++ cleared spare) =
      if sources.flatten.length < spare then
        some (s ++ sources.flatten ++ cleared (spare - sources.flatten.length))
      else none := by
  induction sources generalizing s spare with
  | nil => simp [room]
  | cons source sources ih =>
      rw [List.forall_mem_cons] at cleanSources
      rw [List.foldlM_cons, strcat_append_cleared clean room, List.flatten_cons,
        List.length_append]
      by_cases fits : source.length < spare
      · have clean' : 0 ∉ s ++ source := by simp [clean, cleanSources.1]
        rw [if_pos fits, Option.bind_eq_bind, Option.bind_some,
          ih clean' (Nat.sub_pos_of_lt fits) cleanSources.2]
        by_cases all : source.length + sources.flatten.length < spare
        · rw [if_pos all, if_pos (by omega), Nat.sub_sub, List.append_assoc s]
        · rw [if_neg all, if_neg (by omega)]
      · rw [if_neg fits, if_neg (by omega)]
        rfl

/-- A source that is long enough is copied without padding. -/
theorem strncpy_eq {count : Nat} (long : count ≤ source.length) (room : count ≤ block.length) :
    strncpy block 0 source count = some (source.take count ++ block.drop count) := by
  have length : (source.take count).length = count := List.length_take_of_le long
  rw [strncpy, Nat.sub_eq_zero_of_le long, List.replicate_zero, List.append_nil, write, length,
    if_pos (by omega), List.take_zero, List.nil_append, Nat.zero_add]

end Functions

end FrameCode.StringBlocks
