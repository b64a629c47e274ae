import Verium.Consensus.Validation
import Verium.Primitives.Serialize

/-!
Transactions, their serialization and their hash. Hash functions, the curve and scrypt
are parameters: nothing below depends on what they compute, and a result that needs a
property of one of them states it.
-/

namespace Verium

open Lib

/-- The cryptographic primitives the node links against. Digests are given by the number
their bytes denote, so each has its fixed length by construction. -/
structure Crypto where
  sha256 : Bytes → UInt256
  ripemd160 : Bytes → BitVec 160
  sha1 : Bytes → BitVec 160
  /-- The result of `scryptHash` on an 80-byte header when its memory was obtained. -/
  scrypt : Bytes → UInt256
  /-- `CPubKey::Verify(hash, vchSig)`. -/
  verify : (vchPubKey : Bytes) → (hash : UInt256) → (vchSig : Bytes) → Bool
  /-- `CPubKey::CheckLowS(vchSig)`. -/
  checkLowS : (vchSig : Bytes) → Bool

/-- Stand-ins for the primitives that can be evaluated: digests that tell short inputs
apart, a work hash of zero, and signatures that always verify. -/
def sampleCrypto : Crypto where
  sha256 b := BitVec.ofNat 256 (b.foldl (fun h x => 257 * h + x.toNat + 1) 1)
  ripemd160 b := BitVec.ofNat 160 (b.foldl (fun h x => 257 * h + x.toNat + 1) 1)
  sha1 b := BitVec.ofNat 160 (b.foldl (fun h x => 257 * h + x.toNat + 1) 1)
  scrypt _ := 0
  verify _ _ _ := true
  checkLowS _ := true

/-- `Hash`, the double SHA-256 of `hash.h`. -/
def Crypto.hash (c : Crypto) (b : Bytes) : UInt256 :=
  c.sha256 (serUInt256 (c.sha256 b))

/-- `Hash160`: RIPEMD-160 of SHA-256. -/
def Crypto.hash160 (c : Crypto) (b : Bytes) : BitVec 160 :=
  c.ripemd160 (serUInt256 (c.sha256 b))

structure COutPoint where
  hash : UInt256
  n : UInt32
deriving DecidableEq, Repr

namespace COutPoint

def nullIndex : UInt32 := 0xffffffff

def null : COutPoint := ⟨0, nullIndex⟩

def isNull (o : COutPoint) : Bool :=
  o.hash = 0 && o.n = nullIndex

def serialize (o : COutPoint) : Bytes :=
  serUInt256 o.hash ++ serUInt32 o.n

@[simp]
theorem serialize_length (o : COutPoint) : o.serialize.length = 36 := by
  simp [serialize]

end COutPoint

abbrev CScriptWitness := List Bytes

structure CTxIn where
  prevout : COutPoint
  scriptSig : CScript
  nSequence : UInt32
  /-- Never written to the wire: this chain has no witness serialization. -/
  scriptWitness : CScriptWitness := []
deriving DecidableEq, Repr

namespace CTxIn

def sequenceFinal : UInt32 := 0xffffffff

def serialize (txin : CTxIn) : Bytes :=
  txin.prevout.serialize ++ serBytes txin.scriptSig ++ serUInt32 txin.nSequence

end CTxIn

structure CTxOut where
  nValue : CAmount
  scriptPubKey : CScript
deriving DecidableEq, Repr

namespace CTxOut

def null : CTxOut := ⟨-1, []⟩

def isNull (txout : CTxOut) : Bool :=
  txout.nValue = -1

def serialize (txout : CTxOut) : Bytes :=
  serInt64 txout.nValue ++ serBytes txout.scriptPubKey

theorem serialize_length (txout : CTxOut) :
    txout.serialize.length =
      8 + (getSizeOfCompactSize txout.scriptPubKey.length + txout.scriptPubKey.length) := by
  simp [serialize]

end CTxOut

structure CTransaction where
  nVersion : Int32
  nTime : UInt32
  vin : List CTxIn
  vout : List CTxOut
  nLockTime : UInt32
deriving DecidableEq, Repr

/-- The largest amount, `MAX_MONEY`: here the largest 64-bit signed number. -/
def maxMoney : CAmount := Int64.maxValue

def oneCoin : CAmount := 100000000

def moneyRange (nValue : CAmount) : Bool :=
  0 ≤ nValue && nValue ≤ maxMoney

namespace CTransaction

def serialize (tx : CTransaction) : Bytes :=
  serInt32 tx.nVersion ++ serUInt32 tx.nTime ++ serVector CTxIn.serialize tx.vin ++
    serVector CTxOut.serialize tx.vout ++ serUInt32 tx.nLockTime

def getHash (crypto : Crypto) (tx : CTransaction) : UInt256 :=
  crypto.hash tx.serialize

def getTotalSize (tx : CTransaction) : Nat :=
  tx.serialize.length

def hasWitness (_ : CTransaction) : Bool := false

/-- `GetWitnessHash`; with no witness it is the hash itself. -/
def getWitnessHash (crypto : Crypto) (tx : CTransaction) : UInt256 :=
  tx.getHash crypto

def isNull (tx : CTransaction) : Bool :=
  tx.vin.isEmpty && tx.vout.isEmpty

def isCoinBase (tx : CTransaction) : Bool :=
  match tx.vin with
  | [txin] => txin.prevout.isNull && 1 ≤ tx.vout.length
  | _ => false

/-- One round of the loop of `GetValueOut`. -/
def addValueOut (nValueOut : CAmount) (txout : CTxOut) : Result CAmount := do
  let sum := nValueOut + txout.nValue
  rejectIf (¬ moneyRange txout.nValue ∨ ¬ moneyRange sum)
    (.exception "GetValueOut: value out of range")
  return sum

def getValueOut (tx : CTransaction) : Result CAmount :=
  tx.vout.foldlM addValueOut 0

/-- The outpoint of output `i`. -/
def outPoint (crypto : Crypto) (tx : CTransaction) (i : Nat) : COutPoint :=
  ⟨tx.getHash crypto, UInt32.ofNat i⟩

end CTransaction

end Verium
