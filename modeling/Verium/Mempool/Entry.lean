import Mathlib.Data.UInt
import Verium.Chain.Index
import Verium.Consensus.TxVerify
import Verium.Lib.Wrap

/-!
Entries of the memory pool: the transaction with its fee, and the statistics of its ancestors and
descendants in the pool. The statistics are 64-bit numbers; only the assertions of the two update
functions look at their sign.
-/

namespace Verium

open Lib

/-- What the pool takes from outside: the hash functions and `-bytespersigop`. -/
structure PoolEnv where
  crypto : Crypto
  nBytesPerSigOp : UInt32

def defaultBytesPerSigOp : UInt32 := 20

def getTransactionWeight (tx : CTransaction) : Nat :=
  tx.serialize.length * (witnessScaleFactor - 1) + tx.serialize.length

def getVirtualTransactionSize (nWeight nSigOpCost : Int64) (bytesPerSigOp : UInt32) : Int64 :=
  (max nWeight (nSigOpCost * Int64.ofNat bytesPerSigOp.toNat) +
    Int64.ofNat witnessScaleFactor - 1) / Int64.ofNat witnessScaleFactor

structure LockPoints where
  height : Int
  time : Int
  maxInputBlock : Option BlockPtr
deriving DecidableEq, Repr

structure CTxMemPoolEntry where
  tx : CTransaction
  nFee : CAmount
  nTime : Int
  spendsCoinbase : Bool
  sigOpCost : Int64
  feeDelta : Int64
  lockPoints : LockPoints
  nCountWithDescendants : UInt64
  nSizeWithDescendants : UInt64
  nModFeesWithDescendants : CAmount
  nCountWithAncestors : UInt64
  nSizeWithAncestors : UInt64
  nModFeesWithAncestors : CAmount
  nSigOpCostWithAncestors : Int64
  vTxHashesIdx : Nat
deriving DecidableEq, Repr

namespace CTxMemPoolEntry

/-- `GetTxSize` from the transaction and its sigop cost. -/
def txSize (env : PoolEnv) (tx : CTransaction) (sigOpCost : Int64) : UInt64 :=
  (getVirtualTransactionSize (Int64.ofNat (getTransactionWeight tx)) sigOpCost
    env.nBytesPerSigOp).toUInt64

def getTxSize (env : PoolEnv) (e : CTxMemPoolEntry) : UInt64 :=
  txSize env e.tx e.sigOpCost

def getModifiedFee (e : CTxMemPoolEntry) : CAmount :=
  e.nFee + e.feeDelta

/-- The constructor. -/
def new (env : PoolEnv) (tx : CTransaction) (nFee : CAmount) (nTime : Int)
    (spendsCoinbase : Bool) (sigOpCost : Int64) (lockPoints : LockPoints) : CTxMemPoolEntry where
  tx
  nFee
  nTime
  spendsCoinbase
  sigOpCost
  feeDelta := 0
  lockPoints
  nCountWithDescendants := 1
  nSizeWithDescendants := txSize env tx sigOpCost
  nModFeesWithDescendants := nFee
  nCountWithAncestors := 1
  nSizeWithAncestors := txSize env tx sigOpCost
  nModFeesWithAncestors := nFee
  nSigOpCostWithAncestors := sigOpCost
  vTxHashesIdx := 0

def updateFeeDelta (newFeeDelta : Int64) (e : CTxMemPoolEntry) : CTxMemPoolEntry :=
  { e with
    nModFeesWithDescendants := e.nModFeesWithDescendants + (newFeeDelta - e.feeDelta)
    nModFeesWithAncestors := e.nModFeesWithAncestors + (newFeeDelta - e.feeDelta)
    feeDelta := newFeeDelta }

def updateDescendantState (modifySize : Int64) (modifyFee : CAmount) (modifyCount : Int64)
    (e : CTxMemPoolEntry) : Result CTxMemPoolEntry := do
  let nSizeWithDescendants := e.nSizeWithDescendants + modifySize.toUInt64
  assertThat (0 < nSizeWithDescendants.toInt64) "int64_t(nSizeWithDescendants) > 0"
  let nCountWithDescendants := e.nCountWithDescendants + modifyCount.toUInt64
  assertThat (0 < nCountWithDescendants.toInt64) "int64_t(nCountWithDescendants) > 0"
  return { e with
    nSizeWithDescendants
    nModFeesWithDescendants := e.nModFeesWithDescendants + modifyFee
    nCountWithDescendants }

def updateAncestorState (modifySize : Int64) (modifyFee : CAmount) (modifyCount : Int64)
    (modifySigOps : Int64) (e : CTxMemPoolEntry) : Result CTxMemPoolEntry := do
  let nSizeWithAncestors := e.nSizeWithAncestors + modifySize.toUInt64
  assertThat (0 < nSizeWithAncestors.toInt64) "int64_t(nSizeWithAncestors) > 0"
  let nCountWithAncestors := e.nCountWithAncestors + modifyCount.toUInt64
  assertThat (0 < nCountWithAncestors.toInt64) "int64_t(nCountWithAncestors) > 0"
  let nSigOpCostWithAncestors := e.nSigOpCostWithAncestors + modifySigOps
  assertThat (0 ≤ nSigOpCostWithAncestors.toInt32) "int(nSigOpCostWithAncestors) >= 0"
  return { e with
    nSizeWithAncestors
    nModFeesWithAncestors := e.nModFeesWithAncestors + modifyFee
    nCountWithAncestors
    nSigOpCostWithAncestors }

end CTxMemPoolEntry

end Verium
