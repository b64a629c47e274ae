import Verium.Consensus.TxVerify
import Verium.Primitives.VarInt

/-!
The compact form in which coins are stored in the coins database and in the undo files:
`compressor.cpp`, `Coin::Serialize` and `undo.h`. Reading fills an empty coin, so a script that
cannot be decompressed is the empty one.
-/

namespace Verium

open Lib

/-- What `CPubKey` takes from the elliptic curve library. -/
structure PubKeyCode where
  isFullyValid : Bytes → Bool
  decompress : Bytes → Option Bytes

/-- `IsToKeyID`, with the hash. -/
def isToKeyID (script : CScript) : Option Bytes :=
  if script.length = 25 ∧ script[0]? = some Opcode.opDup ∧ script[1]? = some Opcode.opHash160 ∧
      script[2]? = some 20 ∧ script[23]? = some Opcode.opEqualVerify ∧
      script[24]? = some Opcode.opCheckSig then
    some ((script.drop 3).take 20)
  else none

/-- `IsToScriptID`, with the hash. -/
def isToScriptID (script : CScript) : Option Bytes :=
  if script.length = 23 ∧ script[0]? = some Opcode.opHash160 ∧ script[1]? = some 20 ∧
      script[22]? = some Opcode.opEqual then
    some ((script.drop 2).take 20)
  else none

/-- `IsToPubKey`, with the key. -/
def isToPubKey (code : PubKeyCode) (script : CScript) : Option Bytes :=
  if script.length = 35 ∧ script[0]? = some 33 ∧ script[34]? = some Opcode.opCheckSig ∧
      (script[1]? = some 0x02 ∨ script[1]? = some 0x03) then
    some ((script.drop 1).take 33)
  else if script.length = 67 ∧ script[0]? = some 65 ∧ script[66]? = some Opcode.opCheckSig ∧
      script[1]? = some 0x04 then
    let pubkey := (script.drop 1).take 65
    -- a key that is not on the curve would not be restored
    if code.isFullyValid pubkey then some pubkey else none
  else none

/-- The last part of `CompressScript`: the x coordinate, after a byte that tells the form of the
key and the parity of y. -/
def compressPubKey (pubkey : Bytes) : Option Bytes :=
  let x := (pubkey.drop 1).take 32
  match pubkey.head? with
  | some 0x02 => some (0x02 :: x)
  | some 0x03 => some (0x03 :: x)
  | some 0x04 => some ((0x04 ||| (pubkey.getD 64 0 &&& 0x01)) :: x)
  | _ => none

def compressScript (code : PubKeyCode) (script : CScript) : Option Bytes :=
  match isToKeyID script with
  | some keyID => some (0x00 :: keyID)
  | none =>
      match isToScriptID script with
      | some scriptID => some (0x01 :: scriptID)
      | none => (isToPubKey code script).bind compressPubKey

def getSpecialScriptSize (nSize : Nat) : Nat :=
  if nSize = 0 ∨ nSize = 1 then 20
  else if nSize = 2 ∨ nSize = 3 ∨ nSize = 4 ∨ nSize = 5 then 32
  else 0

/-- The last case of `DecompressScript`; `none` is the result false. -/
def decompressPubKeyScript (code : PubKeyCode) (nSize : Nat) (x : Bytes) :
    Result (Option CScript) :=
  match code.decompress (UInt8.ofNat (nSize - 2) :: x.take 32) with
  | none => .ok none
  | some pubkey => do
      assertThat (pubkey.length = 65) "pubkey.size() == 65"
      return some (65 :: (pubkey ++ [Opcode.opCheckSig]))

/-- `DecompressScript`; `none` is the result false. -/
def decompressScript (code : PubKeyCode) (nSize : Nat) (vch : Bytes) : Result (Option CScript) :=
  match nSize with
  | 0x00 => .ok (some (Opcode.opDup :: Opcode.opHash160 :: 20 ::
      (vch.take 20 ++ [Opcode.opEqualVerify, Opcode.opCheckSig])))
  | 0x01 => .ok (some (Opcode.opHash160 :: 20 :: (vch.take 20 ++ [Opcode.opEqual])))
  | 0x02 | 0x03 => .ok (some (33 :: UInt8.ofNat nSize :: (vch.take 32 ++ [Opcode.opCheckSig])))
  | 0x04 | 0x05 => decompressPubKeyScript code nSize vch
  | _ => .ok none

/-- The first loop of `CompressAmount`: divide by ten at most `left` more times. -/
def dropZeros : (left n e : Nat) → Nat × Nat
  | 0, n, e => (n, e)
  | left + 1, n, e => if n % 10 = 0 then dropZeros left (n / 10) (e + 1) else (n, e)

/-- `CompressAmount`, in 64-bit arithmetic. -/
def compressAmount (n : Nat) : Result Nat :=
  if n = 0 then .ok 0
  else
    let (n, e) := dropZeros 9 n 0
    if e < 9 then do
      let d := n % 10
      assertThat (1 ≤ d ∧ d ≤ 9) "d >= 1 && d <= 9"
      return (1 + (n / 10 * 9 + d - 1) * 10 + e) % 2 ^ 64
    else .ok ((1 + (n - 1) * 10 + 9) % 2 ^ 64)

/-- The loop of `DecompressAmount`. -/
def appendZeros : (e n : Nat) → Nat
  | 0, n => n
  | e + 1, n => appendZeros e (n * 10 % 2 ^ 64)

/-- `DecompressAmount`, in 64-bit arithmetic. -/
def decompressAmount (x : Nat) : Nat :=
  if x = 0 then 0
  else
    let x := x - 1
    let e := x % 10
    let x := x / 10
    let n := if e < 9 then (x / 9 * 10 + (x % 9 + 1)) % 2 ^ 64 else (x + 1) % 2 ^ 64
    appendZeros e n

section Streams

variable (code : PubKeyCode)

def nSpecialScripts : Nat := 6

/-- `CScriptCompressor::Serialize`. -/
def serializeScript (script : CScript) : Bytes :=
  match compressScript code script with
  | some compr => compr
  | none => writeVarInt 32 ((script.length + nSpecialScripts) % 2 ^ 32) ++ script

def readSpecialScript (nSize : Nat) : StreamReader CScript := do
  let vch ← readExact endOfData (getSpecialScriptSize nSize)
  let script ← StateT.lift (decompressScript code nSize vch)
  return script.getD []

/-- An overly long script is replaced with a short invalid one. -/
def readPlainScript (nSize : Nat) : StreamReader CScript :=
  if maxScriptSize < nSize then do
    let _ ← readExact (.exception "CDataStream::ignore(): end of data") nSize
    return [Opcode.opReturn]
  else readExact endOfData nSize

/-- `CScriptCompressor::Unserialize`. -/
def unserializeScript : StreamReader CScript := do
  let nSize ← readVarInt 32
  if nSize < nSpecialScripts then readSpecialScript code nSize
  else readPlainScript (nSize - nSpecialScripts)

/-- `CTxOutCompressor` when it writes. -/
def compressTxOut (txout : CTxOut) : Result Bytes := do
  let nVal ← compressAmount txout.nValue.toUInt64.toNat
  return writeVarInt 64 nVal ++ serializeScript code txout.scriptPubKey

/-- `CTxOutCompressor` when it reads. -/
def decompressTxOut : StreamReader CTxOut := do
  let nVal ← readVarInt 64
  let scriptPubKey ← unserializeScript code
  return ⟨(UInt64.ofNat (decompressAmount nVal)).toInt64, scriptPubKey⟩

/-- `nHeight * 2 + fCoinBase`. -/
def Coin.nCode (c : Coin) : Nat :=
  (c.nHeight * 2 + if c.fCoinBase then 1 else 0) % 2 ^ 32

def Coin.serialize (c : Coin) : Result Bytes := do
  assertThat (¬ c.isSpent) "!IsSpent()"
  let out ← compressTxOut code c.out
  return writeVarInt 32 c.nCode ++ out

def Coin.unserialize : StreamReader Coin := do
  let nCode ← readVarInt 32
  let out ← decompressTxOut code
  return ⟨out, nCode &&& 1 ≠ 0, nCode >>> 1⟩

/-- `TxInUndoSerializer::Serialize`. -/
def serializeTxInUndo (c : Coin) : Result Bytes := do
  let out ← compressTxOut code c.out
  -- the zero stands where older versions had the version of the transaction
  return writeVarInt 32 c.nCode ++ ((if 0 < c.nHeight then [0] else []) ++ out)

def readVersionDummy (nHeight : Nat) : StreamReader Nat :=
  if 0 < nHeight then readVarInt 32 else pure 0

/-- `TxInUndoDeserializer::Unserialize`. -/
def unserializeTxInUndo : StreamReader Coin := do
  let nCode ← readVarInt 32
  let _ ← readVersionDummy (nCode / 2)
  let out ← decompressTxOut code
  return ⟨out, nCode &&& 1 ≠ 0, nCode / 2⟩

def minTransactionInputWeight : Nat :=
  witnessScaleFactor * (⟨COutPoint.null, [], CTxIn.sequenceFinal, []⟩ : CTxIn).serialize.length

def maxInputsPerBlock : Nat :=
  maxBlockWeight / minTransactionInputWeight

/-- `CTxUndo::Serialize`. -/
def serializeTxUndo (vprevout : List Coin) : Result Bytes := do
  let records ← vprevout.mapM (serializeTxInUndo code)
  return writeCompactSize vprevout.length ++ records.flatten

/-- `CTxUndo::Unserialize`. -/
def unserializeTxUndo : StreamReader (List Coin) := do
  let count ← readCompactSize
  refuseIf (maxInputsPerBlock < count) (.exception "Too many input undo records")
  readMany (unserializeTxInUndo code) count

end Streams

end Verium
