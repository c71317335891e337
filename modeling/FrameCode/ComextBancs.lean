import FrameCode.ComextHashtable
import FrameCode.CText
import FrameCode.ImTypes

/-!
# Collecting fragments: `comext-bancs.c`

`InputMessageProcess` keeps the fragments of a message in the response table until
they are complete and then passes them to the handler of the transaction.  What a
handler makes of the fragments is a parameter; each of them removes the reference id
from the table on every path.

A fragment that is too short for the header fields, or whose sequence number is not
the index of a fragment, leads outside of an array: the result is `none`.
-/

namespace FrameCode.ComextBancs

open Comext CText ImTypes

/-! ## The header of a fragment -/

/-- `PROTOCOL_HEADER_LENGTH`. -/
def protocolHeaderLength : Nat := 5

/-- `FLAG2_OFFSET`. -/
def flag2Offset : Nat := 78

/-- `JYDM_OFFSET`. -/
def jydmOffset : Nat := 52

/-- `UUID_OFFSET`. -/
def uuidOffset : Nat := 90

/-- The transaction codes of `iCheckSafJYDM`; the last row of its array is empty. -/
def safjydm : List (List UInt8) :=
  ["001110", "001145", "001150", "001160", "001445", "003145",
    "009193", "009195", "011110", "011144", "011145", "011146",
    "011148", "011155", "011157", "011160", "013110", "013131",
    "013145", "013146", "016110", "016144", "016145", "016146",
    "016148", "020110", "020145", "020160", "021131", "021151",
    "021431", "026131", "026151", "041130", "041150", "084115",
    "090101", "001130", "021153", "020154", "020130", "020150",
    "013130", "016157", "011136", "016136", "016134", "043130",
    "022112", "021127", "011134", "058145", "021135", "024162",
    "021150", "024112", "013111", "020134", "004160"].map literal ++ [List.replicate 6 0]

def iCheckSafJYDM (jydm : List UInt8) : Int := if jydm ∈ safjydm then 0 else 1

/-- The transaction code of a fragment. -/
def jydm (message : List UInt8) : List UInt8 :=
  (message.drop (protocolHeaderLength + jydmOffset)).take 6

/-- The reference id of a fragment. -/
def referenceID (message : List UInt8) : List UInt8 :=
  let wwqdlsh := (message.drop (protocolHeaderLength + uuidOffset)).take 32
  if iCheckSafJYDM (jydm message) = 0 then cString 6 (jydm message) ++ cString 32 wwqdlsh
  else cString 32 wwqdlsh

/-- The sequence number of a fragment. -/
def sequence (message : List UInt8) : Int := atoi ((message.drop (5 + 24)).take 4)

/-- The flag of a fragment. -/
def flag (message : List UInt8) : UInt8 := message.getD (protocolHeaderLength + flag2Offset) 0

/-- The flag announces more fragments: `'0'` or `'4'`. -/
def Continues (message : List UInt8) : Prop := flag message = 48 ∨ flag message = 52

/-- The flag is that of a last fragment: `'2'` or `'6'`. -/
def Ends (message : List UInt8) : Prop := flag message = 50 ∨ flag message = 54

instance (message : List UInt8) : Decidable (Continues message) :=
  inferInstanceAs (Decidable (_ ∨ _))

instance (message : List UInt8) : Decidable (Ends message) :=
  inferInstanceAs (Decidable (_ ∨ _))

/-! ## Handlers -/

/-- The handlers of the transactions. -/
inductive Handler
  | handle010450 | handle000450 | handleWithOutputcode | handle020430 | handle007017
  | handle000600 | handle060451 | handle020450 | iHandleNoOutputcode
deriving DecidableEq, Repr

/-- The handler that `HandleInputMessage` chooses for a transaction code. -/
def chooseHandler (jym : List UInt8) : Handler :=
  if jym = literal "010450" then .handle010450
  else if jym = literal "000450" then .handle000450
  else if jym = literal "013031" then .handleWithOutputcode
  else if jym = literal "020430" then .handle020430
  else if jym = literal "007017" then .handle007017
  else if jym = literal "000600" then .handle000600
  else if jym = literal "032001" then .handleWithOutputcode
  else if jym = literal "000409" then .handleWithOutputcode
  else if jym = literal "060451" then .handle060451
  else if jym = literal "020450" then .handle020450
  else .iHandleNoOutputcode

/-- The arguments of a call of a handler. -/
structure Call where
  handler : Handler
  fragments : Fragments
  number : Nat

/-- What `InputMessageProcess` returns, the message it leaves to its caller, and the
calls of handlers it has made. -/
structure Reply where
  length : Int
  message : Option (List UInt8)
  calls : List Call

/-! ## Processing a fragment -/

/-- The ways in which the loop of `HandleInputMessage` ends. -/
inductive Progress
  | missing
  | badFlag
  | tooMany
  | complete (number : Nat)
deriving DecidableEq

/-- The loop of `HandleInputMessage` over the fragments, from index `i` on. -/
def checkFragments (i : Nat) : List (Option (List UInt8)) → Progress
  | [] => .tooMany
  | none :: _ => .missing
  | some fragment :: rest =>
      if Ends fragment then .complete i
      else if Continues fragment then checkFragments (i + 1) rest
      else .badFlag

section Processing

variable (hashcode : List UInt8 → Nat)
variable (handle : Handler → Fragments → Nat → Int × Option (List UInt8))

def handleInputMessage (response : ComextHashtable) (bucket : ComextBucket) :
    Option (ComextHashtable × Reply) :=
  match checkFragments 0 bucket.fragments.toList with
  | .missing => some (response, ⟨0, none, []⟩)
  | .badFlag | .tooMany => do
      let deleted ← comextDeleteElementByRefid hashcode response bucket.refid
      some (deleted.1, ⟨-1, none, []⟩)
  | .complete number => do
      let handler := chooseHandler (jydm (bucket.fragments[0].getD []))
      let result := handle handler bucket.fragments number
      let deleted ← comextDeleteElementByRefid hashcode response bucket.refid
      some (deleted.1, ⟨result.1, result.2, [⟨handler, bucket.fragments, number⟩]⟩)

/-- The response table and the time when it was last cleaned. -/
structure ComExt where
  response : ComextHashtable
  lastCleanTime : Int

def initComExt (time : Int) : ComExt := ⟨comextInitializeHashtable hashcode 500, time⟩

/-- Whether `CleanTimeout` removes a bucket. -/
def Expired (curTime : Int) (bucket : ComextBucket) : Prop :=
  bucket.info = .live ∧ 20 < curTime - bucket.time

instance (curTime : Int) (bucket : ComextBucket) : Decidable (Expired curTime bucket) :=
  inferInstanceAs (Decidable (_ ∧ _))

def cleanTimeout (curTime : Int) (response : ComextHashtable) : ComextHashtable :=
  (List.range response.numberOfBuckets).foldl (fun table i =>
    if Expired curTime (table.slot (comextOps hashcode) i) then
      (comextDeleteElement hashcode table i).1
    else table) response

/-- A fragment with the times that `InputMessageProcess` and `CleanTimeout` read from
the clock. -/
structure Arrival where
  message : List UInt8
  time : Int
  cleanTime : Int

/-- The fragment has its header fields and a sequence number from 1 to 64. -/
def Legible (message : List UInt8) : Prop :=
  protocolHeaderLength + uuidOffset + 32 ≤ message.length ∧
    1 ≤ sequence message ∧ sequence message ≤ 64

instance (message : List UInt8) : Decidable (Legible message) :=
  inferInstanceAs (Decidable (_ ∧ _))

/-- Put a fragment into its place. -/
def addFragment (message : List UInt8) (legible : Legible message) (fragments : Fragments) :
    Fragments :=
  fragments.set (sequence message - 1).toNat (some message) (by
    obtain ⟨-, positive, bounded⟩ := legible
    omega)

/-- The bucket of a new reference id. -/
def newBucket (arrival : Arrival) (legible : Legible arrival.message) : ComextBucket where
  info := .live
  refid := referenceID arrival.message
  time := arrival.time
  fragments := addFragment arrival.message legible noFragments

/-- The table after the cleaning that a new reference id may ask for. -/
def cleaned (arrival : Arrival) (s : ComExt) : ComExt :=
  if 20 < arrival.time - s.lastCleanTime then
    ⟨cleanTimeout hashcode arrival.cleanTime s.response, arrival.time⟩
  else s

def inputMessageProcess (arrival : Arrival) (s : ComExt) : Option (ComExt × Reply) :=
  if legible : Legible arrival.message then do
    let refid := referenceID arrival.message
    let position ← comextFindElement hashcode s.response refid
    match comextRetrieveElement hashcode s.response position with
    | none =>
        let s := cleaned hashcode arrival s
        match ← comextInsertElement hashcode s.response (newBucket arrival legible) with
        | (response, none) =>
            some ({ s with response := response }, ⟨-1, some arrival.message, []⟩)
        | (response, some _) => do
            let handled ←
              handleInputMessage hashcode handle response (newBucket arrival legible)
            some ({ s with response := handled.1 }, handled.2)
    | some bucket => do
        let bucket := { bucket with
          fragments := addFragment arrival.message legible bucket.fragments }
        let response := { s.response with buckets := s.response.buckets.set position bucket }
        let handled ← handleInputMessage hashcode handle response bucket
        some ({ s with response := handled.1 }, handled.2)
  else none

/-- Process fragments in the order of their arrival. -/
def processAll : List Arrival → ComExt → Option (ComExt × List Reply)
  | [], s => some (s, [])
  | arrival :: later, s => do
      let first ← inputMessageProcess hashcode handle arrival s
      let rest ← processAll later first.1
      some (rest.1, first.2 :: rest.2)

end Processing

/-! ## What replies are compared with -/

/-- The reply to the last of the fragments that have arrived. -/
def replyTo (handle : Handler → Fragments → Nat → Int × Option (List UInt8))
    (fragments : Fragments) : Reply :=
  match checkFragments 0 fragments.toList with
  | .missing => ⟨0, none, []⟩
  | .badFlag | .tooMany => ⟨-1, none, []⟩
  | .complete number =>
      let handler := chooseHandler (jydm (fragments[0].getD []))
      let result := handle handler fragments number
      ⟨result.1, result.2, [⟨handler, fragments, number⟩]⟩

/-- The fragments of a message that have arrived, each in its place. -/
def arrivedFragments (fragments arrived : List (List UInt8)) : Fragments :=
  Vector.ofFn fun k : Fin 64 => (fragments[k.val]?).filter fun fragment => fragment ∈ arrived

end FrameCode.ComextBancs
