import FrameCode.LibHex
import FrameCode.StringBlocks

/-!
# Encoded log records

The functions of `bas_encrypt.c`.  A record begins with a marker, two characters for the mask and
the length of the record in decimal; groups of three bytes follow as four characters, in lines of
at most 51 bytes that begin with their number of bytes.  A `char` is signed, and an `int` has 32
bits.
-/

namespace FrameCode.BasEncrypt

open CText CheckedCopy StringBlocks MachineInt
open LibHex (promote)

def stcnEncodeHead : List UInt8 := literal "DZYA"

def maxlen : Nat := 51200

/-! ## Encoding -/

/-- The macro `ENC`. -/
def enc (c : BitVec 32) : UInt8 :=
  if c ≠ 0 then UInt8.ofBitVec (((c &&& 0x3F) + 32).truncate 8) else 96

/-- The macro `XC`. -/
def xc (mask : BitVec 32) (c : UInt8) : BitVec 32 := promote c ^^^ mask

/-- The four characters of three bytes. -/
def encodeGroup (mask : BitVec 32) (src0 src1 src2 : UInt8) : List UInt8 :=
  [enc ((xc mask src0).sshiftRight 2),
    enc ((xc mask src0 <<< 4 &&& 0x30) ||| ((xc mask src1).sshiftRight 4 &&& 0x0F)),
    enc ((xc mask src1 <<< 2 &&& 0x3C) ||| ((xc mask src2).sshiftRight 6 &&& 0x03)),
    enc (xc mask src2 &&& 0x3F)]

/-- The inner loop of `_lencodelog`, for the groups to go.  All three bytes of a group are read,
whatever the length of the text is. -/
def encodeGroups (mask : BitVec 32) (src : List UInt8) : Nat → Nat → Option (List UInt8)
  | 0, _ => some []
  | more + 1, offset => do
      let src0 ← src[offset]?
      let src1 ← src[offset + 1]?
      let src2 ← src[offset + 2]?
      let rest ← encodeGroups mask src more (offset + 3)
      some (encodeGroup mask src0 src1 src2 ++ rest)

/-- The outer loop, for the lines to go. -/
def encodeLines (mask : BitVec 32) (src : List UInt8) : Nat → Nat → Nat → Option (List UInt8)
  | 0, _, _ => some []
  | more + 1, offset, iLen => do
      let n := if iLen > 51 then 51 else iLen
      let groups ← encodeGroups mask src ((n + 2) / 3) offset
      let rest ← encodeLines mask src more (offset + 3 * ((n + 2) / 3)) (iLen - 51)
      some (enc (BitVec.ofNat 32 n) :: groups ++ rest)

/-- The characters of `%07d` that are copied. -/
def lengthDigits (l : Nat) : List UInt8 :=
  (List.replicate (7 - (decimal l).length) 48 ++ decimal l).take 7

/-- `_lencodelog` at time `t`: the length of the record and the destination.  The length of the
destination is not checked. -/
def encodeLog (t : Int) (dest src : List UInt8) (iLen : Nat) : Option (Nat × List UInt8) := do
  let mask := BitVec.ofInt 32 t &&& 0xFFFF
  let lines ← encodeLines mask src ((iLen + 50) / 51) 0 iLen
  let l := 13 + lines.length + 1
  let maskChars := [enc (mask.sshiftRight 2),
    enc ((mask <<< 4 &&& 0x30) ||| ((mask.sshiftRight 8).sshiftRight 4 &&& 0x0F))]
  let dest ← write dest 0
    (stcnEncodeHead ++ maskChars ++ lengthDigits l ++ lines ++ [enc 0, 0])
  some (l, dest)

/-- `lencodelog` with the value of `ENCLOG`, if there is one. -/
def lencodelog (pENCLOG : Option (List UInt8)) (t : Int) (dest src : List UInt8) (iLen : Nat) :
    Option (Nat × List UInt8) :=
  if pENCLOG.map text ≠ some (literal "Y") then do
    let copied ← read src 0 iLen
    let dest ← write dest 0 copied
    some (iLen, dest)
  else encodeLog t dest src iLen

/-! ## Decoding -/

/-- The macro `DEC`. -/
def dec (c : UInt8) : BitVec 32 := (promote c - 32) &&& 0x3F

/-- A value that is stored in a `char`. -/
def toChar (value : BitVec 32) : UInt8 := UInt8.ofBitVec (value.truncate 8)

/-- The inner loop of `ldecodelog`, for the groups to go and the bytes of the line to go. -/
def decodeGroups (src : List UInt8) : Nat → Nat → Nat → Option (List UInt8)
  | 0, _, _ => some []
  | more + 1, offset, n =>
      if n ≥ 3 then do
        let src0 ← src[offset]?
        let src1 ← src[offset + 1]?
        let src2 ← src[offset + 2]?
        let src3 ← src[offset + 3]?
        let rest ← decodeGroups src more (offset + 4) (n - 3)
        some (toChar (dec src0 <<< 2 ||| (dec src1).sshiftRight 4) ::
          toChar (dec src1 <<< 4 ||| (dec src2).sshiftRight 2) ::
          toChar (dec src2 <<< 6 ||| dec src3) :: rest)
      else do
        let src0 ← src[offset]?
        let src1 ← src[offset + 1]?
        if n ≥ 2 then do
          let src2 ← src[offset + 2]?
          some [toChar (dec src0 <<< 2 ||| (dec src1).sshiftRight 4),
            toChar (dec src1 <<< 4 ||| (dec src2).sshiftRight 2)]
        else some [toChar (dec src0 <<< 2 ||| (dec src1).sshiftRight 4)]

/-- The outer loop, with a bound on its rounds. -/
def decodeLines (src : List UInt8) : Nat → Nat → Nat → Option (List UInt8)
  | 0, _, _ => none
  | fuel + 1, offset, iLen =>
      if iLen > 0 then do
        let first ← src[offset]?
        let n := (dec first).toNat
        if n = 0 then some []
        else do
          let groups ← decodeGroups src ((n + 2) / 3) (offset + 1) n
          let rest ← decodeLines src fuel (offset + 1 + 4 * ((n + 2) / 3)) (iLen - n)
          some (groups ++ rest)
      else some []

/-- `ldecodelog`: the length of the text, zero for what is no record, and the destination. -/
def ldecodelog (dest src : List UInt8) (iLen : Nat) : Option (Nat × List UInt8) :=
  if iLen < 14 then some (0, dest)
  else do
    let head ← read src 0 4
    if head ≠ stcnEncodeHead then some (0, dest)
    else do
      let p0 ← src[4]?
      let p1 ← src[5]?
      let mask := dec p0 <<< 2 ||| (dec p1).sshiftRight 4
      let chars ← decodeLines src (iLen + 1) 13 iLen
      let dest ← write dest 0 (chars.map fun char => toChar (promote char ^^^ mask))
      some (chars.length, dest)

/-! ## A whole log -/

/-- `fprintf` of `%*.*s` with the same width and precision: spaces fill the width in front. -/
def printed (buffer : List UInt8) (width : Nat) : List UInt8 :=
  let shown := (text buffer).take width
  List.replicate (width - shown.length) 32 ++ shown

/-- What `ldecodefd2fd` does behind a marker at `iEncryptPos`: `none` for an access outside of its
buffer, otherwise its result if it ends here, or the text of the record and the rest of the log.
The buffer has NUL bytes behind what is read. -/
def readRecord (iEncryptPos : Nat) (fdR : List UInt8) :
    Option (Option (List UInt8 × List UInt8)) :=
  if fdR.length < 9 then some none
  else
    let header := fdR.take 9
    let iEncryLen := atoi (header.drop 2 ++ [0])
    -- a negative size is converted to a large one
    let wanted := if 13 ≤ iEncryLen then (iEncryLen - 13).toNat else fdR.length
    let body := (fdR.drop 9).take wanted
    if iEncryptPos + 13 + body.length > maxlen * 2 then none
    else if body.length < wanted ∨ wanted = 0 then some none
    else do
      let src := stcnEncodeHead ++ header ++ body ++
        cleared (maxlen * 2 - (iEncryptPos + 13 + body.length))
      let (iDecodeLen, caDecodeBuf) ← ldecodelog (cleared (maxlen * 2)) src iEncryLen.toNat
      if iDecodeLen = 0 then some none
      else some (some (printed caDecodeBuf iDecodeLen, (fdR.drop 9).drop wanted))

/-- The loop of `ldecodefd2fd`, with a bound on its rounds: the result and what has been written.
The buffer is given up to `iPos`; the cells behind are NUL. -/
def decodeLoop : Nat → List UInt8 → List UInt8 → Nat → List UInt8 → Option (Int × List UInt8)
  | 0, _, _, _, _ => none
  | _ + 1, [], caReadbuf, _, fdW => some (0, fdW ++ printed caReadbuf (caReadbuf.length + 1))
  | fuel + 1, char :: fdR, caReadbuf, iMatchCnt, fdW =>
      let caReadbuf := caReadbuf ++ [char]
      let found := stcnEncodeHead[iMatchCnt]? == some char
      if found ∧ iMatchCnt + 1 = 4 then
        let iEncryptPos := caReadbuf.length - 4
        match readRecord iEncryptPos fdR with
        | none => none
        | some none => some (-1, fdW)
        | some (some (decoded, fdR)) =>
            decodeLoop fuel fdR [] 0 (fdW ++ printed caReadbuf iEncryptPos ++ decoded)
      else
        let iMatchCnt :=
          if found then iMatchCnt + 1
          else if iMatchCnt ≠ 0 then if stcnEncodeHead[0]? = some char then 1 else 0
          else iMatchCnt
        if caReadbuf.length = maxlen - 1 then
          decodeLoop fuel fdR (caReadbuf.drop (caReadbuf.length - iMatchCnt)) iMatchCnt
            (fdW ++ printed caReadbuf (caReadbuf.length - iMatchCnt))
        else decodeLoop fuel fdR caReadbuf iMatchCnt fdW

def ldecodefd2fd (fdR : List UInt8) : Option (Int × List UInt8) :=
  decodeLoop (fdR.length + 1) fdR [] 0 []

/-- What `basBatLog` appends to the log for a text that is in its buffer. -/
def basBatLog (pENCLOG : Option (List UInt8)) (t : Int) (caOutBuf : List UInt8) :
    Option (List UInt8) := do
  let length ← strlen caOutBuf
  let (iOutBufLen, caEncryptBuf) ← lencodelog pENCLOG t (cleared 51200) caOutBuf length
  some (caEncryptBuf.take iOutBufLen)

end FrameCode.BasEncrypt
