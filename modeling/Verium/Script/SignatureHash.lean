import Verium.Primitives.Transaction
import Verium.Script.Script

/-!
The digest a signature commits to. `SignatureHash` and the reference implementation of
the test suite, `SignatureHashOld`, both edit a copy of the transaction and hash its
serialization followed by the hash type. They are written over an arbitrary digest type
so that the hash can be taken as injective.
-/

namespace Verium

open Lib

def sighashNone : UInt32 := 2
def sighashSingle : UInt32 := 3
def sighashAnyoneCanPay : UInt32 := 0x80

/-- `nHashType & 0x1f`. -/
def baseHashType (nHashType : Int32) : UInt32 :=
  nHashType.toUInt32 &&& 0x1f

/-- `nHashType & SIGHASH_ANYONECANPAY`. -/
def anyoneCanPay (nHashType : Int32) : Bool :=
  nHashType.toUInt32 &&& sighashAnyoneCanPay ≠ 0

/-- Blank the scriptSig of every input and put `scriptCode` into input `nIn`. -/
def blankScriptSigs (scriptCode : CScript) (nIn : Nat) (vin : List CTxIn) : List CTxIn :=
  vin.mapIdx fun i txin => { txin with scriptSig := if i = nIn then scriptCode else [] }

/-- Let the other inputs update at will: their sequence numbers become zero. -/
def zeroOtherSequences (nIn : Nat) (vin : List CTxIn) : List CTxIn :=
  vin.mapIdx fun i txin => if i = nIn then txin else { txin with nSequence := 0 }

/-- `vout.resize(nOut + 1)`, then `SetNull` on every output before `nOut`. -/
def keepSingleOutput (nOut : Nat) (vout : List CTxOut) : List CTxOut :=
  (vout.take (nOut + 1)).mapIdx fun i txout => if i < nOut then CTxOut.null else txout

/-- `vin[0] = vin[nIn]; vin.resize(1)`. -/
def keepOnlyInput (nIn : Nat) (vin : List CTxIn) : List CTxIn :=
  (vin.drop nIn).take 1

/-- The copy of the transaction that gets serialized, or `none` where the constant `one` is
returned. The two implementations differ only in what they do to the outputs in the branch
for `SIGHASH_NONE`, given by `noneOutputs`. -/
def sighashTx (noneOutputs : List CTxOut → List CTxOut) (scriptCode : CScript)
    (txTo : CTransaction) (nIn : Nat) (nHashType : Int32) : Option CTransaction :=
  if txTo.vin.length ≤ nIn then none
  else
    let scriptCode := (findAndDelete scriptCode [Opcode.opCodeSeparator]).1
    let txTmp := { txTo with vin := blankScriptSigs scriptCode nIn txTo.vin }
    let edited :=
      if baseHashType nHashType = sighashNone then
        some { txTmp with
          vout := noneOutputs txTmp.vout
          vin := zeroOtherSequences nIn txTmp.vin }
      else if baseHashType nHashType = sighashSingle then
        if txTmp.vout.length ≤ nIn then none
        else
          some { txTmp with
            vout := keepSingleOutput nIn txTmp.vout
            vin := zeroOtherSequences nIn txTmp.vin }
      else some txTmp
    edited.map fun txTmp =>
      if anyoneCanPay nHashType then { txTmp with vin := keepOnlyInput nIn txTmp.vin }
      else txTmp

/-- `SignatureHash` leaves the outputs as they are under `SIGHASH_NONE`. -/
def signatureHashTx : CScript → CTransaction → Nat → Int32 → Option CTransaction :=
  sighashTx id

/-- `SignatureHashOld` clears them: `txTmp.vout.clear()`. -/
def signatureHashOldTx : CScript → CTransaction → Nat → Int32 → Option CTransaction :=
  sighashTx fun _ => []

section Digest

variable {δ : Type*} (one : δ) (hash : Bytes → δ)

/-- `ss << txTmp << nHashType`, hashed; `one` where there is nothing to hash. -/
def sighashDigest (txTmp : Option CTransaction) (nHashType : Int32) : δ :=
  match txTmp with
  | none => one
  | some txTmp => hash (txTmp.serialize ++ serInt32 nHashType)

def signatureHash (scriptCode : CScript) (txTo : CTransaction) (nIn : Nat)
    (nHashType : Int32) : δ :=
  sighashDigest one hash (signatureHashTx scriptCode txTo nIn nHashType) nHashType

def signatureHashOld (scriptCode : CScript) (txTo : CTransaction) (nIn : Nat)
    (nHashType : Int32) : δ :=
  sighashDigest one hash (signatureHashOldTx scriptCode txTo nIn nHashType) nHashType

end Digest

end Verium
