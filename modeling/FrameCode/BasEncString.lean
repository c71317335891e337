import FrameCode.FeistelNetwork
import FrameCode.LibHex
import FrameCode.StringBlocks
import Mathlib.Data.Fintype.Basic

/-!
# The block cipher of `bas_encString.c`

Strings are encrypted in blocks of eight bytes with two keys: each block is encrypted under the
first key, decrypted under the second one and encrypted under the first one again.  A bit is a
`char` of value 0 or 1 in the source; here it is a `Bool`.
-/

namespace FrameCode.BasEncString

open CText CheckedCopy StringBlocks
open LibHex (promote)

/-! ## The tables -/

def tableIP : Vector (Fin 64) 64 :=
  #v[57, 49, 41, 33, 25, 17, 9, 1,
    59, 51, 43, 35, 27, 19, 11, 3,
    61, 53, 45, 37, 29, 21, 13, 5,
    63, 55, 47, 39, 31, 23, 15, 7,
    56, 48, 40, 32, 24, 16, 8, 0,
    58, 50, 42, 34, 26, 18, 10, 2,
    60, 52, 44, 36, 28, 20, 12, 4,
    62, 54, 46, 38, 30, 22, 14, 6]

def tableIP1 : Vector (Fin 64) 64 :=
  #v[39, 7, 47, 15, 55, 23, 63, 31,
    38, 6, 46, 14, 54, 22, 62, 30,
    37, 5, 45, 13, 53, 21, 61, 29,
    36, 4, 44, 12, 52, 20, 60, 28,
    35, 3, 43, 11, 51, 19, 59, 27,
    34, 2, 42, 10, 50, 18, 58, 26,
    33, 1, 41, 9, 49, 17, 57, 25,
    32, 0, 40, 8, 48, 16, 56, 24]

def tableE : Vector (Fin 32) 48 :=
  #v[31, 0, 1, 2, 3, 4,
    3, 4, 5, 6, 7, 8,
    7, 8, 9, 10, 11, 12,
    11, 12, 13, 14, 15, 16,
    15, 16, 17, 18, 19, 20,
    19, 20, 21, 22, 23, 24,
    23, 24, 25, 26, 27, 28,
    27, 28, 29, 30, 31, 0]

def tableP : Vector (Fin 32) 32 :=
  #v[15, 6, 19, 20, 28, 11, 27, 16,
    0, 14, 22, 25, 4, 17, 30, 9,
    1, 7, 23, 13, 31, 26, 2, 8,
    18, 12, 29, 5, 21, 10, 3, 24]

/-- The eight boxes, each with its four rows. -/
def tableS : List (List (List Nat)) :=
  [[[14, 4, 13, 1, 2, 15, 11, 8, 3, 10, 6, 12, 5, 9, 0, 7],
    [0, 15, 7, 4, 14, 2, 13, 1, 10, 6, 12, 11, 9, 5, 3, 8],
    [4, 1, 14, 8, 13, 6, 2, 11, 15, 12, 9, 7, 3, 10, 5, 0],
    [15, 12, 8, 2, 4, 9, 1, 7, 5, 11, 3, 14, 10, 0, 6, 13]],
   [[15, 1, 8, 14, 6, 11, 3, 4, 9, 7, 2, 13, 12, 0, 5, 10],
    [3, 13, 4, 7, 15, 2, 8, 14, 12, 0, 1, 10, 6, 9, 11, 5],
    [0, 14, 7, 11, 10, 4, 13, 1, 5, 8, 12, 6, 9, 3, 2, 15],
    [13, 8, 10, 1, 3, 15, 4, 2, 11, 6, 7, 12, 0, 5, 14, 9]],
   [[10, 0, 9, 14, 6, 3, 15, 5, 1, 13, 12, 7, 11, 4, 2, 8],
    [13, 7, 0, 9, 3, 4, 6, 10, 2, 8, 5, 14, 12, 11, 15, 1],
    [13, 6, 4, 9, 8, 15, 3, 0, 11, 1, 2, 12, 5, 10, 14, 7],
    [1, 10, 13, 0, 6, 9, 8, 7, 4, 15, 14, 3, 11, 5, 2, 12]],
   [[7, 13, 14, 3, 0, 6, 9, 10, 1, 2, 8, 5, 11, 12, 4, 15],
    [13, 8, 11, 5, 6, 15, 0, 3, 4, 7, 2, 12, 1, 10, 14, 9],
    [10, 6, 9, 0, 12, 11, 7, 13, 15, 1, 3, 14, 5, 2, 8, 4],
    [3, 15, 0, 6, 10, 1, 13, 8, 9, 4, 5, 11, 12, 7, 2, 14]],
   [[2, 12, 4, 1, 7, 10, 11, 6, 8, 5, 3, 15, 13, 0, 14, 9],
    [14, 11, 2, 12, 4, 7, 13, 1, 5, 0, 15, 10, 3, 9, 8, 6],
    [4, 2, 1, 11, 10, 13, 7, 8, 15, 9, 12, 5, 6, 3, 0, 14],
    [11, 8, 12, 7, 1, 14, 2, 13, 6, 15, 0, 9, 10, 4, 5, 3]],
   [[12, 1, 10, 15, 9, 2, 6, 8, 0, 13, 3, 4, 14, 7, 5, 11],
    [10, 15, 4, 2, 7, 12, 9, 5, 6, 1, 13, 14, 0, 11, 3, 8],
    [9, 14, 15, 5, 2, 8, 12, 3, 7, 0, 4, 10, 1, 13, 11, 6],
    [4, 3, 2, 12, 9, 5, 15, 10, 11, 14, 1, 7, 6, 0, 8, 13]],
   [[4, 11, 2, 14, 15, 0, 8, 13, 3, 12, 9, 7, 5, 10, 6, 1],
    [13, 0, 11, 7, 4, 9, 1, 10, 14, 3, 5, 12, 2, 15, 8, 6],
    [1, 4, 11, 13, 12, 3, 7, 14, 10, 15, 6, 8, 0, 5, 9, 2],
    [6, 11, 13, 8, 1, 4, 10, 7, 9, 5, 0, 15, 14, 2, 3, 12]],
   [[13, 2, 8, 4, 6, 15, 11, 1, 10, 9, 3, 14, 5, 0, 12, 7],
    [1, 15, 13, 8, 10, 3, 7, 4, 12, 5, 6, 11, 0, 14, 9, 2],
    [7, 11, 4, 1, 9, 12, 14, 2, 0, 6, 10, 13, 15, 3, 5, 8],
    [2, 1, 14, 7, 4, 10, 8, 13, 15, 12, 9, 0, 3, 5, 6, 11]]]

def tablePC1 : Vector (Fin 64) 56 :=
  #v[56, 48, 40, 32, 24, 16, 8,
    0, 57, 49, 41, 33, 25, 17,
    9, 1, 58, 50, 42, 34, 26,
    18, 10, 2, 59, 51, 43, 35,
    62, 54, 46, 38, 30, 22, 14,
    6, 61, 53, 45, 37, 29, 21,
    13, 5, 60, 52, 44, 36, 28,
    20, 12, 4, 27, 19, 11, 3]

/-- Entry 35 is the same as entry 28, and no entry is 47. -/
def tablePC2 : Vector (Fin 56) 48 :=
  #v[13, 16, 10, 23, 0, 4, 2, 27,
    14, 5, 20, 9, 22, 18, 11, 3,
    25, 7, 15, 6, 26, 19, 12, 1,
    40, 51, 30, 36, 46, 54, 29, 39,
    50, 44, 32, 46, 43, 48, 38, 55,
    33, 52, 45, 41, 49, 35, 28, 31]

def tableLS : List Nat := [1, 1, 2, 2, 2, 2, 2, 2, 1, 2, 2, 2, 2, 2, 2, 1]

/-! ## Bytes and bits -/

def byteToBit (ch : UInt8) : Vector Bool 8 :=
  Vector.ofFn fun i => promote ch >>> (7 - i.val) &&& 1 ≠ 0

def bitToByte (bit : Vector Bool 8) (ch : UInt8) : UInt8 :=
  (List.finRange 8).foldl
    (fun ch i => ch ||| UInt8.ofNat (bit[7 - i.val].toNat <<< i.val)) ch

def ch8ToBit64 (ch : Vector UInt8 8) : Vector Bool 64 :=
  Vector.ofFn fun i => (byteToBit ch[i.val / 8])[i.val % 8]

def bit64ToCh8 (bit : Vector Bool 64) : Vector UInt8 8 :=
  Vector.ofFn fun i => bitToByte (Vector.ofFn fun j => bit[8 * i.val + j.val]) 0

/-! ## Keys -/

def desPC1 (key : Vector Bool 64) : Vector Bool 56 :=
  Vector.ofFn fun i => key[tablePC1[i]]

def desPC2 (key : Vector Bool 56) : Vector Bool 48 :=
  Vector.ofFn fun i => key[tablePC2[i]]

/-- Both halves of 28 bits are rotated: the four copies of `DES_ROL`, from the front. -/
def desROL (data : Vector Bool 56) (count : Nat) : Vector Bool 56 :=
  if small : count ≤ 28 then
    Vector.ofFn fun i =>
      if left : i.val < 28 - count then data[i.val + count]
      else if leftEnd : i.val < 28 then data[i.val - (28 - count)]
      else if right : i.val < 56 - count then data[i.val + count]
      else data[28 + (i.val - (56 - count))]
  else data

/-- The keys of the rounds; `temp` of a round has been rotated once for every round up to it. -/
def desSubKey (key : Vector Bool 64) : Vector (Vector Bool 48) 16 :=
  Vector.ofFn fun i => desPC2 ((tableLS.take (i.val + 1)).foldl desROL (desPC1 key))

/-! ## Rounds -/

def desIP (data : Vector Bool 64) : Vector Bool 64 := Vector.ofFn fun i => data[tableIP[i]]

def desIP1 (data : Vector Bool 64) : Vector Bool 64 := Vector.ofFn fun i => data[tableIP1[i]]

def desE (data : Vector Bool 32) : Vector Bool 48 := Vector.ofFn fun i => data[tableE[i]]

/-- Only the first 32 of the 48 cells are read. -/
def desP (data : Vector Bool 48) : Vector Bool 32 :=
  Vector.ofFn fun i => data[tableP[i].val]

/-- As many bits as the second argument has are changed. -/
def desXOR {m n : Nat} (right : Vector Bool m) (left : Vector Bool n) : Vector Bool m :=
  Vector.ofFn fun i => if inside : i.val < n then right[i] ^^ left[i.val] else right[i]

/-- The entry of box `i` for six bits from `j` on. -/
def sboxOutput (data : Vector Bool 48) (i : Fin 8) : Nat :=
  let j := i.val * 6
  let row := data[j].toNat <<< 1 + data[j + 5].toNat
  let column := data[j + 1].toNat <<< 3 + data[j + 2].toNat <<< 2 + data[j + 3].toNat <<< 1 +
    data[j + 4].toNat
  ((tableS.getD i []).getD row []).getD column 0

/-- The four bits of the entry go to the same array that the boxes read. -/
def sboxStep (data : Vector Bool 48) (i : Fin 8) : Vector Bool 48 :=
  let k := i.val <<< 2
  have : k + 3 < 48 := by simp only [k, Nat.shiftLeft_eq]; omega
  let output := sboxOutput data i
  (((data.set k ((output &&& 8) >>> 3 != 0)).set (k + 1) ((output &&& 4) >>> 2 != 0)).set (k + 2)
    ((output &&& 2) >>> 1 != 0)).set (k + 3) (output &&& 1 != 0)

def desSBOX (data : Vector Bool 48) : Vector Bool 48 := (List.finRange 8).foldl sboxStep data

def desSwitch (bits : Vector Bool 64) : Vector Bool 64 :=
  Vector.ofFn fun i => if i.val < 32 then bits[(i.val + 32) % 64] else bits[i.val - 32]

/-- The body of the sixteen rounds, up to the exchange behind the last one. -/
def desRound (bits : Vector Bool 64) (subKey : Vector Bool 48) : Vector Bool 64 :=
  let copyRight : Vector Bool 32 := Vector.ofFn fun i => bits[i.val + 32]
  let copyRight := desP (desSBOX (desXOR (desE copyRight) subKey))
  desSwitch (desXOR bits copyRight)

def desEncryptBlock (plainBlock : Vector UInt8 8) (subKey : Vector (Vector Bool 48) 16) :
    Vector UInt8 8 :=
  let plainBits := desIP (ch8ToBit64 plainBlock)
  let plainBits := (List.finRange 16).foldl (fun plainBits i =>
    let plainBits := desRound plainBits subKey[i]
    if i = 15 then desSwitch plainBits else plainBits) plainBits
  bit64ToCh8 (desIP1 plainBits)

def desDecryptBlock (cipherBlock : Vector UInt8 8) (subKey : Vector (Vector Bool 48) 16) :
    Vector UInt8 8 :=
  let cipherBits := desIP (ch8ToBit64 cipherBlock)
  let cipherBits := (List.finRange 16).reverse.foldl (fun cipherBits i =>
    let cipherBits := desRound cipherBits subKey[i]
    if i = 0 then desSwitch cipherBits else cipherBits) cipherBits
  bit64ToCh8 (desIP1 cipherBits)

theorem tableIP_tableIP1 : ∀ i : Fin 64, tableIP[tableIP1[i]] = i := by decide

theorem tableIP1_tableIP : ∀ i : Fin 64, tableIP1[tableIP[i]] = i := by decide

/-- The bits in front of and behind the middle. -/
def halves (bits : Vector Bool 64) : Vector Bool 32 × Vector Bool 32 :=
  (Vector.ofFn fun i => bits[i.val], Vector.ofFn fun i => bits[i.val + 32])

/-- The round keys from the first one on. -/
def roundKeys (subKey : Vector (Vector Bool 48) 16) : List (Vector Bool 48) :=
  (List.finRange 16).map fun i => subKey[i]

/-! ## Strings under two keys -/

/-- The eight bytes that `memcpy` takes from an offset of a buffer. -/
def readBlock (buffer : List UInt8) (offset : Nat) : Option (Vector UInt8 8) :=
  (read buffer offset 8).map fun cells => Vector.ofFn fun i => cells.getD i 0

/-- `subLKey` and `subRKey`. -/
abbrev SubKeys := Vector (Vector Bool 48) 16 × Vector (Vector Bool 48) 16

def setKeys (keyStr : List UInt8) : Option SubKeys := do
  let keyLBlock ← readBlock keyStr 0
  let keyRBlock ← readBlock keyStr 8
  some (desSubKey (ch8ToBit64 keyLBlock), desSubKey (ch8ToBit64 keyRBlock))

def encryptBlock (keys : SubKeys) (plainBlock : Vector UInt8 8) : Vector UInt8 8 :=
  let cipherBlock := desEncryptBlock plainBlock keys.1
  let tmpBlock := desDecryptBlock cipherBlock keys.2
  desEncryptBlock tmpBlock keys.1

def decryptBlock (keys : SubKeys) (cipherBlock : Vector UInt8 8) : Vector UInt8 8 :=
  let plainBlock := desDecryptBlock cipherBlock keys.1
  let tmpBlock := desEncryptBlock plainBlock keys.2
  desDecryptBlock tmpBlock keys.1

/-- The loops of `DES_Encrypt` and `DES_Decrypt` over whole blocks, with the blocks to go. -/
def blockLoop (crypt : Vector UInt8 8 → Vector UInt8 8) (caInString : List UInt8) :
    Nat → Nat → List UInt8 → Option (List UInt8)
  | 0, _, caOutString => some caOutString
  | more + 1, count, caOutString => do
      let block ← readBlock caInString (8 * count)
      let caOutString ← write caOutString (8 * count) (crypt block).toList
      blockLoop crypt caInString more (count + 1) caOutString

/-- `DES_Encrypt`: the buffer of the result.  The last bytes are filled up with NUL. -/
def desEncrypt (caInString keyStr caOutString : List UInt8) : Option (List UInt8) := do
  let keys ← setKeys keyStr
  let len ← strlen caInString
  let iBlock := len / 8
  let iOdd := len % 8
  let caOutString ← blockLoop (encryptBlock keys) caInString iBlock 0 caOutString
  if iOdd ≠ 0 then do
    let plainBlock ← readBlock caInString (8 * iBlock)
    let plainBlock : Vector UInt8 8 := Vector.ofFn fun i => if i < iOdd then plainBlock[i] else 0
    write caOutString (8 * iBlock) (encryptBlock keys plainBlock).toList
  else some caOutString

/-- `DES_Decrypt`: the last block is read whole, whatever is behind the string. -/
def desDecrypt (caInString keyStr caOutString : List UInt8) : Option (List UInt8) := do
  let keys ← setKeys keyStr
  let len ← strlen caInString
  let iBlock := len / 8
  let iOdd := len % 8
  let caOutString ← blockLoop (decryptBlock keys) caInString iBlock 0 caOutString
  if iOdd ≠ 0 then do
    let cipherBlock ← readBlock caInString (8 * iBlock)
    write caOutString (8 * iBlock) (decryptBlock keys cipherBlock).toList
  else some caOutString

/-! ## Text of binary data -/

def base : List UInt8 := literal "ABCDEFGHIJKLMNOPQRSTUVWXYZabcdefghijklmnopqrstuvwxyz0123456789+/="

/-- The last place of a character in `base` or of the NUL behind it; the difference of addresses
means nothing for another character. -/
def findPos (ch : UInt8) : Option Nat :=
  if ch ∈ base ++ [0] then some (65 - (base ++ [0]).reverse.idxOf ch) else none

/-- The loop of `base64_encode`, with a bound on its rounds. -/
def encodeLoop (data : List UInt8) (dataLen : Nat) :
    Nat → Nat → Nat → List UInt8 → Option (List UInt8)
  | 0, _, _, _ => none
  | fuel + 1, tmp, f, ret =>
      if tmp < dataLen then do
        let temp := min 3 (dataLen - tmp)
        let bytes ← read data tmp temp
        let prepare := bytes.foldl (fun prepare byte => prepare <<< 8 ||| byte.toNat) 0
        let prepare := prepare <<< ((3 - temp) * 8)
        let changed := (List.range 4).map fun i =>
          if temp < i then 0x40 else prepare >>> ((3 - i) * 6) &&& 0x3F
        let ret ← write ret f (changed.map fun place => base.getD place 0)
        encodeLoop data dataLen fuel (tmp + temp) (f + 4) ret
      else write ret f [0]

def base64Encode (data : List UInt8) (dataLen : Nat) : Option (List UInt8) :=
  let retLen := dataLen / 3
  let retLen := if dataLen % 3 > 0 then retLen + 1 else retLen
  let retLen := retLen * 4 + 1
  encodeLoop data dataLen (dataLen + 1) 0 0 (cleared retLen)

/-- The character at an address; there is none in front of the block. -/
def charAt (data : List UInt8) (place : Int) : Option UInt8 :=
  if 0 ≤ place then data[place.toNat]? else none

def equalCount (data : List UInt8) (dataLen : Nat) : Option Nat := do
  let last ← charAt data (dataLen - 1)
  let second ← charAt data (dataLen - 2)
  let third ← charAt data (dataLen - 3)
  some ([last, second, third].count 61)

/-- The loop of `base64_decode` over the `count` characters in front of the `=`, with a bound on
its rounds.  Each round clears four bytes of `need`, an array of three. -/
def decodeLoop (data : List UInt8) (count : Nat) :
    Nat → Nat → Nat → List UInt8 → List UInt8 → Option (List UInt8)
  | 0, _, _, _, _ => none
  | fuel + 1, tmp, f, need, ret =>
      if tmp < count then do
        let need ← memset need 0 0 4
        let temp := min 4 (count - tmp)
        let chars ← read data tmp temp
        let places ← chars.mapM findPos
        let prepare := places.foldl (fun prepare place => prepare <<< 6 ||| place) 0
        let prepare := prepare <<< ((4 - temp) * 6)
        let bytes := ((List.range 3).takeWhile fun i => i ≠ temp).map fun i =>
          UInt8.ofNat (prepare >>> ((2 - i) * 8) &&& 0xFF)
        let ret ← write ret f bytes
        decodeLoop data count fuel (tmp + temp) (f + bytes.length) need ret
      else write ret f [0]

/-- The first contents of `need` are arbitrary, and nothing reads them. -/
def base64Decode (data : List UInt8) (dataLen : Nat) : Option (List UInt8) := do
  let need := List.replicate 3 0
  let equalCount ← equalCount data dataLen
  let retLen := dataLen / 4 * 3 + match equalCount with
    | 0 => 4
    | 1 => 4
    | 2 => 3
    | _ => 2
  decodeLoop data (dataLen - equalCount) (dataLen + 1) 0 0 need (cleared retLen)

/-! ## The entry -/

def isSpaceOnly (pcaBuf : List UInt8) (iLen : Nat) : Bool :=
  (text pcaBuf).isEmpty || ((text pcaBuf).take iLen).all (· == 32)

/-- The conversion of a string with width 16 and precision 16. -/
def padKey (key : List UInt8) : List UInt8 :=
  List.replicate (16 - (text key).length) 32 ++ (text key).take 16

/-- `basEncString` with the value of `DBKEY`, if there is one: the result and the buffer of the
output.  Only as many characters of the encoded text are copied as an address has bytes. -/
def basEncString (dbKey : Option (List UInt8)) (caInString caOutString : List UInt8) (iFlag : Int) :
    Option (Int × List UInt8) := do
  let dbKey ← dbKey
  let length ← strlen dbKey
  if length = 0 then some (-1, caOutString)
  else do
    let key ← base64Decode dbKey length
    let caKey := padKey key ++ [0]
    if isSpaceOnly caKey 16 then some (-1, caOutString)
    else if iFlag = 1 then do
      let caOutString ← desEncrypt caInString caKey caOutString
      let length ← strlen caOutString
      let enc ← base64Encode caOutString length
      let copied ← read enc 0 8
      let caOutString ← write caOutString 0 copied
      some (0, caOutString)
    else do
      let length ← strlen caInString
      let dec ← base64Decode caInString length
      let caOutString ← desDecrypt dec caKey caOutString
      some (0, caOutString)

end FrameCode.BasEncString
