import FrameCode.CheckedCopy
import FrameCode.ComextBancs
import FrameCode.YlSocket

/-!
# The handlers of `comext-bancs.c`

A handler merges the fragments `bucket->fragments[0..number]` of a message into `*message`.
Every `memcpy` is checked here: a handler has no result when a copy has a negative length,
reads outside of the fragment it names or writes outside of its target.  A fragment ends where
its own length field says; comparisons of its bytes stay within it too.

All allocations succeed.  Cells of allocated memory are `none` until they are written.
-/

namespace FrameCode.ComextBancs

open CheckedCopy Comext CText
open YlSocket (padded)

/-- `BANCS_HEADER_LENGTH`. -/
def bancsHeaderLength : Nat := 122

/-- `BODY_LENGTH_OFFSET`. -/
def bodyLengthOffset : Nat := 4

/-- `MESSAGE_PAGE_SIZE`. -/
def messagePageSize : Nat := 16384

/-- The two headers of a fragment. -/
def headersLength : Nat := protocolHeaderLength + bancsHeaderLength

/-! ## What is read from a fragment -/

/-- `atoi( msglen_str )`. -/
def declaredLength (fragment : List UInt8) : Option Int := (read fragment 1 4).map atoi

/-- `atoi( bodylen_str )`. -/
def bodyLength (fragment : List UInt8) : Option Int :=
  (read fragment (protocolHeaderLength + bodyLengthOffset) 4).map atoi

/-- The two bytes behind the headers. -/
def outputcode (fragment : List UInt8) : Option (List UInt8) := read fragment headersLength 2

/-! ## The message -/

/-- The memory of `*message`, which has `size` cells, and `length`. -/
structure Merging where
  memory : List (Option UInt8)
  length : Nat

/-- What a handler returns, and `*message`. -/
structure Merged where
  length : Int
  message : Option (List (Option UInt8))

namespace Merging

/-- The first page, before anything is copied. -/
def start : Merging := ⟨List.replicate messagePageSize none, 0⟩

/-- Copy the first bytes of a fragment to the beginning of the message. -/
def putHeader (s : Merging) (fragment : List UInt8) (count : Nat) : Option Merging := do
  let bytes ← read fragment 0 count
  let memory ← write s.memory 0 (bytes.map some)
  some ⟨memory, count⟩

/-- Leave cells to be written later. -/
def reserve (s : Merging) (count : Nat) : Merging := { s with length := s.length + count }

/-- One more page if `message_length` bytes do not fit. -/
def makeRoom (s : Merging) (messageLength : Int) : Merging :=
  if (s.memory.length : Int) < s.length + messageLength then
    { s with memory := s.memory ++ List.replicate messagePageSize none }
  else s

/-- Copy `message_length` bytes of a fragment to the end of the message. -/
def append (s : Merging) (fragment : List UInt8) (offset : Nat) (messageLength : Int) :
    Option Merging := do
  let s := s.makeRoom messageLength
  let bytes ← read fragment offset messageLength
  let memory ← write s.memory s.length (bytes.map some)
  some ⟨memory, s.length + messageLength.toNat⟩

/-- Write bytes into cells that were left. -/
def patch (s : Merging) (offset : Nat) (bytes : List UInt8) : Option Merging := do
  let memory ← write s.memory offset (bytes.map some)
  some { s with memory := memory }

def merged (s : Merging) : Merged := ⟨s.length, some s.memory⟩

end Merging

/-- A whole fragment as the message, with the length field of the fragment `measured`. -/
def copyWhole (measured copied : List UInt8) : Option Merged := do
  let declared ← declaredLength measured
  let s ← Merging.start.append copied 0 (declared + 5)
  some s.merged

/-- The loop over the fragments, which is left at a last fragment.  A handler that does not
meet one gives up its message. -/
def mergeLoop {σ : Type} (turn : Nat → List UInt8 → σ → Option σ)
    (last : List UInt8 → σ → Option Merged) : Nat → List (List UInt8) → σ → Option Merged
  | _, [], _ => some ⟨-1, none⟩
  | i, fragment :: rest, s => do
      let s ← turn i fragment s
      if Ends fragment then last fragment s else mergeLoop turn last (i + 1) rest s

/-- The turn that copies a fragment from `skipped` bytes behind the headers on. -/
def copyRest (skipped : Nat) (fragment : List UInt8) (s : Merging) : Option Merging := do
  let declared ← declaredLength fragment
  s.append fragment (headersLength + skipped) (declared - bancsHeaderLength - skipped)

/-- The turn that copies the body of a fragment, for the last one without its end. -/
def copyBody (number i : Nat) (fragment : List UInt8) (s : Merging) : Option Merging := do
  let declared ← declaredLength fragment
  s.append fragment (headersLength + 2)
    (if i = number then declared - bancsHeaderLength - 82 else declared - bancsHeaderLength - 2)

/-- The number of items is printed into the six cells that were left for it. -/
def putNitems (nitemsOffset nitems : Nat) (s : Merging) : Option Merged := do
  let digits ← read (padded 6 nitems) 0 6
  let s ← s.patch nitemsOffset digits
  some s.merged

/-- The beginning of a body is copied into the cells that were left for it. -/
def putBeginning (width : Nat) (fragment : List UInt8) (s : Merging) : Option Merged := do
  let bytes ← read fragment (headersLength + 2) width
  let s ← s.patch (headersLength + 2) bytes
  some s.merged

/-! ## The handlers -/

section Handlers

variable (fragments : List (List UInt8)) (number : Nat)

/-- `Handle010450` and `Handle000450`, whose bodies begin with `width` bytes each that are
collected before the rest. -/
def handleRecords (width : Nat) : Option Merged := do
  let final ← fragments[number]?
  let code ← outputcode final
  if code = literal "01" then
    let first ← fragments[0]?
    copyWhole first first
  else
    let s ← Merging.start.putHeader final (headersLength + 2)
    let nitemsOffset := s.length
    let s ← (fragments.take (number + 1)).foldlM
      (fun s fragment => s.append fragment (headersLength + 2) width) (s.reserve 6)
    mergeLoop (fun _ => copyRest (2 + width)) (fun _ => putNitems nitemsOffset (number + 1)) 0
      (fragments.take (number + 1)) s

def handle010450 : Option Merged := handleRecords fragments number 268

def handle000450 : Option Merged := handleRecords fragments number 45

def handle000600 : Option Merged := do
  let first ← fragments[0]?
  if number = 0 then copyWhole first first
  else
    let s ← Merging.start.putHeader first (headersLength + 2)
    let nitemsOffset := s.length
    mergeLoop (fun _ => copyRest 2) (fun _ => putNitems nitemsOffset number) 0
      (fragments.take (number + 1)) (s.reserve 6)

def handle060451 : Option Merged := do
  let first ← fragments[0]?
  let final ← fragments[number]?
  if number = 0 then copyWhole first final
  else
    let s ← Merging.start.putHeader final headersLength
    mergeLoop (fun _ => copyRest 0) (fun _ s => some s.merged) 0 (fragments.take (number + 1)) s

/-- `Handle020450` and `Handle007017`, whose bodies begin with `width` bytes each of which the
last ones count. -/
def handlePages (width : Nat) : Option Merged := do
  let first ← fragments[0]?
  if number = 0 then copyWhole first first
  else
    let s ← Merging.start.putHeader first (headersLength + 2)
    mergeLoop (fun _ => copyRest (2 + width)) (putBeginning width) 0
      (fragments.take (number + 1)) (s.reserve width)

def handle020450 : Option Merged := handlePages fragments number 19

def handle007017 : Option Merged := handlePages fragments number 148

/-- The last fragment may be copied with the length field of the first one. -/
def handle020430 : Option Merged := do
  let final ← fragments[number]?
  let code ← outputcode final
  if code = literal "01" then
    let first ← fragments[0]?
    copyWhole first final
  else
    let s ← Merging.start.putHeader final (headersLength + 2)
    let declared ← declaredLength final
    let tail ← if 0 ≤ declared + 5 - 80 then read final (declared + 5 - 80).toNat 80 else none
    let memory ← write s.memory s.length (tail.map some)
    mergeLoop (copyBody number) (fun _ s => some s.merged) 0 (fragments.take (number + 1))
      ⟨memory, s.length + 80⟩

end Handlers

/-! ## Printed fragments -/

/-- The memory of `pmsgprint` when it has been allocated and filled. -/
def printPage : List (Option UInt8) :=
  (literal "2800" ++ List.replicate (messagePageSize - 5) 32 ++ [0]).map some

/-- The variables of `HandleWithOutputcode` and `iHandleNoOutputcode`. -/
structure Printing where
  merging : Merging
  pmsgprint : Option (List (Option UInt8))
  imsgprintLength : Nat
  fristFlag : Bool

/-- What is copied from `warning`; its cells behind that keep what was in them. -/
def warningCells (fragment : List UInt8) (bodylen : Int) : Option (List (Option UInt8)) := do
  let warning ← write (List.replicate (1024 + 1) none) 0 ((literal "55WARNING:" ++ [0]).map some)
  let body ← read fragment (headersLength + 2) bodylen
  let warning ← write warning 10 (body.map some)
  read warning 0 (10 + bodylen)

/-- What is copied to `pmsgprint` for a printed fragment. -/
def printCells (fragment code : List UInt8) (bodylen : Int) : Option (List (Option UInt8)) :=
  if code = literal "55" then warningCells fragment bodylen
  else (read fragment (headersLength + 2) bodylen).map (List.map some)

/-- Whether a fragment with this code is printed. -/
def Printed (code : List UInt8) : Prop := code = literal "28" ∨ code = literal "55"

/-- Whether a fragment with this code is copied to the message. -/
def Copied (code : List UInt8) : Prop :=
  code = literal "01" ∨ code = literal "03" ∨ code = literal "04" ∨ code = literal "08"

instance (code : List UInt8) : Decidable (Printed code) := inferInstanceAs (Decidable (_ ∨ _))

instance (code : List UInt8) : Decidable (Copied code) := inferInstanceAs (Decidable (_ ∨ _))

namespace Printing

/-- `pmsgprint` is allocated when it is first needed. -/
def openPage (s : Printing) : List (Option UInt8) × Nat :=
  match s.pmsgprint with
  | none => (printPage, 4)
  | some page => (page, s.imsgprintLength)

/-- A printed fragment takes a slot of 1024 bytes as long as there is one. -/
def print (s : Printing) (fragment code : List UInt8) (bodylen : Int) : Option Printing :=
  let (page, imsgprintLength) := s.openPage
  if imsgprintLength < messagePageSize - 1024 then do
    let cells ← printCells fragment code bodylen
    let page ← write page imsgprintLength cells
    some { s with pmsgprint := some page, imsgprintLength := imsgprintLength + 1024 }
  else some { s with pmsgprint := some page, imsgprintLength := imsgprintLength }

/-- The message begins with the headers of the first fragment that is copied, unless it has
been begun, and `kept` bytes more. -/
def begin (s : Printing) (kept : Nat) (fragment : List UInt8) : Option Merging :=
  if s.fristFlag then some s.merging else s.merging.putHeader fragment (headersLength + kept)

/-- A fragment that is copied. -/
def copy (s : Printing) (kept : Nat) (fragment : List UInt8) (declared : Int) :
    Option Printing := do
  let merging ← s.begin kept fragment
  let merging ← merging.append fragment (headersLength + kept) (declared - bancsHeaderLength - kept)
  some { s with merging := merging, fristFlag := true }

/-- A turn of the loop. -/
def turn (kept : Nat) (fragment : List UInt8) (s : Printing) : Option Printing := do
  let declared ← declaredLength fragment
  let bodylen ← bodyLength fragment
  let code ← outputcode fragment
  if Printed code then s.print fragment code bodylen
  else if Copied code then s.copy kept fragment declared
  else some s

/-- The variables before the loop: the message begins with a first fragment that is not
printed. -/
def opening (kept : Nat) (first code : List UInt8) : Option Printing :=
  if Printed code then some ⟨Merging.start, none, 0, false⟩
  else (Merging.start.putHeader first (headersLength + kept)).map (⟨·, none, 0, true⟩)

/-- What has been printed is put behind the message. -/
def finish (s : Printing) : Option Merged :=
  match s.pmsgprint with
  | none => some s.merging.merged
  | some page => do
      let count ← read (padded 2 ((s.imsgprintLength - 4) / 1024)) 0 2
      let page ← write page 2 (count.map some)
      let memory :=
        if s.merging.memory.length < s.merging.length + s.imsgprintLength then
          s.merging.memory ++ List.replicate s.imsgprintLength none
        else s.merging.memory
      let cells ← read page 0 s.imsgprintLength
      let memory ← write memory s.merging.length cells
      some ⟨s.merging.length + s.imsgprintLength, some memory⟩

end Printing

section PrintHandlers

variable (fragments : List (List UInt8)) (number : Nat)

/-- The part that the two handlers of output codes have in common. -/
def handlePrinted (kept : Nat) : Option Merged := do
  let first ← fragments[0]?
  let code ← outputcode first
  let s ← Printing.opening kept first code
  mergeLoop (fun _ => Printing.turn kept) (fun _ => Printing.finish) 0
    (fragments.take (number + 1)) s

def handleWithOutputcode : Option Merged := handlePrinted fragments number 0

def iHandleNoOutputcode : Option Merged := do
  let first ← fragments[0]?
  if number = 0 then copyWhole first first else handlePrinted fragments number 2

/-- The handlers of the transactions, on the fragments that were checked. -/
def runHandler : Handler → Option Merged
  | .handle010450 => handle010450 fragments number
  | .handle000450 => handle000450 fragments number
  | .handleWithOutputcode => handleWithOutputcode fragments number
  | .handle020430 => handle020430 fragments number
  | .handle007017 => handle007017 fragments number
  | .handle000600 => handle000600 fragments number
  | .handle060451 => handle060451 fragments number
  | .handle020450 => handle020450 fragments number
  | .iHandleNoOutputcode => iHandleNoOutputcode fragments number

end PrintHandlers

end FrameCode.ComextBancs
