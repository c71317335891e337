import FrameCode.CText
import FrameCode.StreamFraming
import Mathlib.Data.Fintype.Basic

/-!
# The message server `asynccom-server.c`

The server listens on up to 32 lines and has at most one connection on each.  It
collects the bytes of a connection in a block that grows by pages, and hands every
whole message to `HandleTransaction`.

A connection stands for its file descriptor.  A write outside of a block has no
defined meaning, and a failed allocation ends the process: both are `none`.  The
lists `received` and `handed` only record what has happened on each connection.
-/

namespace FrameCode.AsynccomServer

open CText MachineInt

/-! ## Message lengths

What the `GetMessageLength` functions of the three communication modules return;
their other effect is to look up the session for the log. -/

/-- The length in the header, if it is in range. -/
def checkedLength (messageMax headerLength : Nat) (len : Int) : Int :=
  if 0 ≤ len ∧ len ≤ messageMax - headerLength then len + headerLength else -1

/-- `GetMessageLength` of `comext-bancs.c`. -/
def bancsMessageLength (message : List UInt8) : Int :=
  if message.length < 5 then 0
  else if message.head? ≠ some 45 ∧ message.head? ≠ some 65 then -1
  else checkedLength 1048576 5 (atoi ((message.drop 1).take 4))

/-- `GetMessageLength` of `comext-bancscard.c`. -/
def bancscardMessageLength (message : List UInt8) : Int :=
  if message.length < 5 then 0 else checkedLength 262144 5 (atoi ((message.drop 1).take 4))

/-- An `int` in the byte order of the machine. -/
def readInt (bytes : List UInt8) : Int :=
  toInt32 (bytes.foldr (fun byte value => byte.toNat + 256 * value) 0 : Nat)

/-- `GetMessageLength` of `comext-bancscard8583.c`. -/
def bancscard8583MessageLength (message : List UInt8) : Int :=
  if message.length < 4 then 0 else checkedLength 262144 4 (readInt (message.take 4))

/-! ## Lines -/

/-- `FRAGMENT_PAGE_SIZE`. -/
def fragmentPageSize : Nat := 8192

/-- The fields of `accept_data` that belong to the connection of a line.  The
block at `fragment` is its contents. -/
structure Line where
  acceptfd : Option Nat
  fragmentSize : Nat
  fragmentOffset : Nat
  fragment : Option (List UInt8)

/-- `malloc`; the contents of a new block do not matter. -/
def malloc (size : Nat) : List UInt8 := List.replicate size 0

/-- Copy bytes into a block. -/
def writeAt (block : List UInt8) (offset : Nat) (bytes : List UInt8) : Option (List UInt8) :=
  if offset + bytes.length ≤ block.length then
    some (block.take offset ++ bytes ++ block.drop (offset + bytes.length))
  else none

/-- Close the connection of a line and free its block. -/
def closeLine (line : Line) : Line := { line with acceptfd := none, fragment := none }

/-- `HandleListenFD`, once `accept` has returned a connection from the configured
address: it takes the place of the old connection of the line. -/
def handleListenFD (connection : Nat) (line : Line) : Line :=
  { line with acceptfd := some connection, fragment := none }

/-- Take a message from the front of the block; what follows it moves to a new
block of one page. -/
def takeMessage (line : Line) (block : List UInt8) (messageLength : Nat) : Option Line :=
  if messageLength < line.fragmentOffset then
    (writeAt (malloc fragmentPageSize) 0
        ((block.take line.fragmentOffset).drop messageLength)).map fun fragment =>
      { line with
        fragment := some fragment
        fragmentSize := fragmentPageSize
        fragmentOffset := line.fragmentOffset - messageLength }
  else some { line with fragment := none, fragmentSize := 0, fragmentOffset := 0 }

section Messages

variable {σ : Type} (getMessageLength : List UInt8 → Int)
variable (handleTransaction : σ → List UInt8 → σ × Int)

/-- `HandleMessage`: hand over every whole message, each with the outcome of its
transaction.  The number of bytes in the block bounds the rounds of the loop. -/
def handleMessage : Nat → Line → σ → Option (Line × σ × List (List UInt8 × Bool))
  | 0, _, _ => none
  | fuel + 1, line, world =>
      match line.fragment with
      | none => some (line, world, [])
      | some block =>
          let messageLength := getMessageLength (block.take line.fragmentOffset)
          if messageLength = -1 then handleMessage fuel (closeLine line) world
          else if 0 < messageLength ∧ messageLength ≤ line.fragmentOffset then do
            let message := block.take messageLength.toNat
            let line ← takeMessage line block messageLength.toNat
            let outcome := handleTransaction world message
            let line := if outcome.2 < 0 then closeLine line else line
            let result ← handleMessage fuel line outcome.1
            some (result.1, result.2.1, (message, decide (0 ≤ outcome.2)) :: result.2.2)
          else some (line, world, [])

/-- What `read` returns: an error, of which some may be tried again, the end of
the stream, or bytes. -/
inductive ReadResult
  | error (again : Bool)
  | closed
  | bytes (chunk : List UInt8)

/-- Make room in the block of a line before a read; sizes are `int`s. -/
def prepareFragment (line : Line) : Option Line :=
  match line.fragment with
  | some block =>
      if line.fragmentOffset = line.fragmentSize then
        if line.fragmentSize + fragmentPageSize ≤ 2147483647 then
          some { line with
            fragmentSize := line.fragmentSize + fragmentPageSize
            fragment := some (block ++ malloc fragmentPageSize) }
        else none
      else some line
  | none =>
      some { line with
        fragmentSize := fragmentPageSize
        fragmentOffset := 0
        fragment := some (malloc fragmentPageSize) }

/-- `HandleAcceptFD` on a line whose connection is ready to be read. -/
def handleAcceptFD (result : ReadResult) (line : Line) (world : σ) :
    Option (Line × σ × List (List UInt8 × Bool)) := do
  let line ← prepareFragment line
  match result with
  | .error true => some (line, world, [])
  | .error false | .closed => some (closeLine line, world, [])
  | .bytes chunk => do
      let fragment ← writeAt (line.fragment.getD []) line.fragmentOffset chunk
      let line := { line with
        fragment := some fragment, fragmentOffset := line.fragmentOffset + chunk.length }
      handleMessage getMessageLength handleTransaction (line.fragmentOffset + 2) line world

end Messages

/-! ## The server -/

/-- The server with the state `world` that `HandleTransaction` works on. -/
structure Server (σ : Type) where
  lines : Fin 32 → Line
  world : σ
  connections : Nat
  received : Nat → List UInt8
  handed : Nat → List (List UInt8 × Bool)

def start {σ : Type} (world : σ) : Server σ where
  lines _ := ⟨none, 0, 0, none⟩
  world := world
  connections := 0
  received _ := []
  handed _ := []

/-- The bytes that a read adds to its connection. -/
def ReadResult.chunk : ReadResult → List UInt8
  | .bytes chunk => chunk
  | _ => []

section Steps

variable {σ : Type} (getMessageLength : List UInt8 → Int)
variable (handleTransaction : σ → List UInt8 → σ × Int)

/-- The rounds of the loop in `DoService`.  A connection from another address is
closed at once, and `SIGUSR1` closes connections without freeing their block. -/
inductive Step : Server σ → Server σ → Prop
  | accept {s : Server σ} (index : Fin 32) :
      Step s { s with
        lines := Function.update s.lines index (handleListenFD s.connections (s.lines index))
        connections := s.connections + 1 }
  | refuse {s : Server σ} (index : Fin 32) : Step s s
  | read {s : Server σ} (index : Fin 32) {connection : Nat} {prepared line : Line} {world : σ}
      {messages : List (List UInt8 × Bool)} (result : ReadResult)
      (accepted : (s.lines index).acceptfd = some connection)
      (preparedEq : prepareFragment (s.lines index) = some prepared)
      (possible : ∀ chunk, result = .bytes chunk → 1 ≤ chunk.length ∧
        chunk.length ≤ prepared.fragmentSize - prepared.fragmentOffset)
      (handled : handleAcceptFD getMessageLength handleTransaction result (s.lines index)
        s.world = some (line, world, messages)) :
      Step s { s with
        lines := Function.update s.lines index line
        world := world
        received := Function.update s.received connection
          (s.received connection ++ result.chunk)
        handed := Function.update s.handed connection (s.handed connection ++ messages) }
  | clear {s : Server σ} (index : Fin 32) {connection : Nat}
      (accepted : (s.lines index).acceptfd = some connection) :
      Step s { s with
        lines := Function.update s.lines index { s.lines index with acceptfd := none } }

/-- The states of the server over all histories. -/
inductive Reachable : Server σ → Prop
  | start (world : σ) : Reachable (start world)
  | step {s t : Server σ} (before : Reachable s)
      (step : Step getMessageLength handleTransaction s t) : Reachable t

end Steps

end FrameCode.AsynccomServer
