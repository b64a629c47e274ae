import Verium.Consensus.ConnectBlock
import Verium.Mempool.Pool

/-!
`MemPoolAccept`: the checks a loose transaction passes before it enters the pool, and how it enters.
The checks of `PreChecks` come in three parts: those on the transaction and its inputs up to the
fee test, those on its ancestors in the pool, and those on the transactions it replaces. Standard
forms, sequence locks and scripts are judged by functions that are passed in.
-/

namespace Verium

open Lib

/-- How `PreChecks` ends when it returns false. Missing inputs leave the validation state valid. -/
inductive AcceptStop where
  | failed (failure : Failure)
  | missingInputs
deriving DecidableEq, Repr

/-- The parts of the node that `MemPoolAccept` asks, and the settings it reads. -/
structure AcceptContext where
  params : Params
  /-- `::ChainActive().Height()`; `none` without a tip. -/
  tipHeight : Option Nat
  coinsTip : CCoinsView
  haveCoinInCache : COutPoint → Bool
  /-- `GetSpendHeight`: one above the height of the block with the given hash. -/
  getSpendHeight : UInt256 → Int
  checkFinalTx : CTransaction → Bool
  checkSequenceLocks : CTxMemPool → CTransaction → Bool × LockPoints
  fRequireStandard : Bool
  /-- `IsStandardTx`: the reason why the transaction is not standard. -/
  notStandard : CTransaction → Option String
  areInputsStandard : CTransaction → CCoinsViewCache → Bool
  isWitnessStandard : CTransaction → CCoinsViewCache → Bool
  /-- `PolicyScriptChecks` and `ConsensusScriptChecks`. -/
  scriptChecks : CTxMemPool → CTransaction → CCoinsViewCache → Result Unit
  fEnforceMinRelayTxFee : Bool
  minRelayTxFee : CAmount
  limits : PoolLimits
  /-- The order of `descendant_score`, the memory in use and its limit, and the time before which
  entries expire, as `LimitMempoolSize` uses them. -/
  score : CTxMemPoolEntry → CTxMemPoolEntry → Bool
  usage : CTxMemPool → Nat
  sizelimit : Nat
  expiry : Int

structure ATMPArgs where
  nAcceptTime : Int
  bypassLimits : Bool
  nAbsurdFee : CAmount
  testAccept : Bool

structure Workspace where
  conflicts : SetEntries
  allConflicting : SetEntries
  ancestors : SetEntries
  entry : CTxMemPoolEntry
  nFees : CAmount
  nModifiedFees : CAmount
  nConflictingFees : CAmount
  nConflictingSize : UInt64

def rejectHighFee : Nat := 0x100
def minStandardTxNonWitnessSize : Nat := 82
def maxStandardTxSigOpsCost : Nat := maxBlockSigOpsCost / 5
def maxBip125RbfSequence : UInt32 := 0xfffffffd
def extraDescendantTxSizeLimit : Nat := 10000
def mempoolHeight : Nat := 0x7FFFFFFF

/-- `GetMinRelayTxFeeRate`, which is also the `GetMinFee` of the pool. -/
def AcceptContext.getMinRelayTxFee (ctx : AcceptContext) : CAmount :=
  if ctx.fEnforceMinRelayTxFee then ctx.minRelayTxFee else getMinTxFee ctx.params ctx.tipHeight 0

def checkFeeRate (ctx : AcceptContext) (packageSize : Nat) (packageFee : CAmount) :
    Result Unit := do
  let mempoolRejectFee := getFee ctx.getMinRelayTxFee packageSize true
  rejectIf (0 < mempoolRejectFee ∧ packageFee < mempoolRejectFee)
    (.invalid .txMempoolPolicy rejectInsufficientFee "mempool min fee not met")
  rejectIf (packageFee < getFee ctx.getMinRelayTxFee packageSize true)
    (.invalid .txMempoolPolicy rejectInsufficientFee "min relay fee not met")

/-- The fee that `PreChecks` requires of a transaction of the given size in the next block. -/
def poolRequiredFee (ctx : AcceptContext) (nSize : UInt32) : CAmount :=
  getFee (getMinTxFee ctx.params ctx.tipHeight 0) nSize.toNat true

section Inputs

variable (env : PoolEnv) (ctx : AcceptContext) (pool : CTxMemPool)

/-- `CCoinsViewMemPool`: the outputs of the pool, and below them the coins of the tip. -/
def viewMemPool : CCoinsView where
  getCoin o :=
    match pool.mapTx.lookup o.hash with
    | some e => e.tx.vout[o.n.toNat]?.map fun out => Coin.ofTxOut out mempoolHeight false
    | none => ctx.coinsTip.getCoin o
  getBestBlock := ctx.coinsTip.getBestBlock

def dummyView : CCoinsView where
  getCoin _ := none
  getBestBlock := 0

def optsOutOfReplacement (tx : CTransaction) : Bool :=
  tx.vin.all fun txin => maxBip125RbfSequence < txin.nSequence

def addConflict (setConflicts : SetEntries) (txin : CTxIn) : Result SetEntries :=
  match pool.mapNextTx.lookup txin.prevout with
  | none => .ok setConflicts
  | some txConflicting => do
      let hash := txConflicting.getHash env.crypto
      rejectIf (hash ∉ setConflicts ∧ optsOutOfReplacement txConflicting)
        (.invalid .txMempoolPolicy rejectDuplicate "txn-mempool-conflict")
      return setConflicts.insert hash

def checkLoose (tx : CTransaction) : Result Unit := do
  checkTransaction tx true
  rejectIf tx.isCoinBase (consensusInvalid "coinbase")
  rejectIf (ctx.fRequireStandard ∧ (ctx.notStandard tx).isSome)
    (.invalid .txNotStandard rejectNonstandard ((ctx.notStandard tx).getD ""))
  rejectIf (tx.serialize.length < minStandardTxNonWitnessSize)
    (.invalid .txNotStandard rejectNonstandard "tx-size-small")
  rejectIf (¬ ctx.checkFinalTx tx) (.invalid .txPrematureSpend rejectNonstandard "non-final")
  rejectIf (tx.getHash env.crypto ∈ pool.mapTx)
    (.invalid .txConflict rejectDuplicate "txn-already-in-mempool")

def fetchInput (tx : CTransaction) (view : CCoinsViewCache) (txin : CTxIn) :
    Except AcceptStop CCoinsViewCache := do
  let (found, view) := view.haveCoin txin.prevout
  rejectIf (¬ found ∧ ∃ out ∈ List.range tx.vout.length,
    ctx.haveCoinInCache (tx.outPoint env.crypto out))
    (.failed (.invalid .txConflict rejectDuplicate "txn-already-known"))
  rejectIf (¬ found) .missingInputs
  return view

/-- All inputs in a view of their own, cut off from the views below it. -/
def fetchInputs (tx : CTransaction) : Except AcceptStop CCoinsViewCache := do
  let view ← tx.vin.foldlM (fetchInput env ctx tx) ⟨viewMemPool ctx pool, 0, ∅, 0⟩
  return { view with base := dummyView, hashBlock := view.getBestBlock }

end Inputs

section PreChecks

variable (env : PoolEnv) (ctx : AcceptContext) (args : ATMPArgs) (pool : CTxMemPool)

structure EntryChecked where
  conflicts : SetEntries
  view : CCoinsViewCache
  entry : CTxMemPoolEntry
  nModifiedFees : CAmount

/-- `nSize` of `PreChecks`, an `unsigned int`. -/
def CTxMemPoolEntry.nSize (e : CTxMemPoolEntry) : UInt32 :=
  (e.getTxSize env).toUInt32

def checkEntryFees (entry : CTxMemPoolEntry) (nModifiedFees : CAmount) : Result Unit := do
  rejectIf (Int64.ofNat maxStandardTxSigOpsCost < entry.sigOpCost)
    (.invalid .txNotStandard rejectNonstandard "bad-txns-too-many-sigops")
  checkWhen (¬ args.bypassLimits) (checkFeeRate ctx (entry.nSize env).toNat nModifiedFees)
  rejectIf (entry.nFee < poolRequiredFee ctx (entry.nSize env)) (consensusInvalid "bad-fee-amount")

def makeEntry (tx : CTransaction) (view : CCoinsViewCache) :
    Result (CTxMemPoolEntry × CCoinsViewCache) := do
  let (locked, lockPoints) := ctx.checkSequenceLocks pool tx
  rejectIf (¬ locked) (.invalid .txPrematureSpend rejectNonstandard "non-BIP68-final")
  let (nFees, view) ← checkTxInputs tx view (ctx.getSpendHeight view.getBestBlock)
  rejectIf (ctx.fRequireStandard ∧ ¬ ctx.areInputsStandard tx view)
    (.invalid .txNotStandard rejectNonstandard "bad-txns-nonstandard-inputs")
  rejectIf (tx.hasWitness ∧ ctx.fRequireStandard ∧ ¬ ctx.isWitnessStandard tx view)
    (.invalid .txWitnessMutated rejectNonstandard "bad-witness-nonstandard")
  let (nSigOpsCost, view) ← getTransactionSigOpCost tx view standardScriptVerifyFlags
  let fSpendsCoinbase := tx.vin.any fun txin => (view.accessCoin txin.prevout).1.fCoinBase
  return (CTxMemPoolEntry.new env tx nFees args.nAcceptTime fSpendsCoinbase
    (Int64.ofNat nSigOpsCost) lockPoints, view)

def preChecksEntry (tx : CTransaction) : Except AcceptStop EntryChecked := do
  (checkLoose env ctx pool tx).mapError .failed
  let conflicts ← (tx.vin.foldlM (addConflict env pool) ∅).mapError .failed
  let view ← fetchInputs env ctx pool tx
  let (entry, view) ← (makeEntry env ctx args pool tx view).mapError .failed
  let nModifiedFees := pool.applyDelta (tx.getHash env.crypto) entry.nFee
  (checkEntryFees env ctx args entry nModifiedFees).mapError .failed
  return ⟨conflicts, view, entry, nModifiedFees⟩

/-- The limits, with room for the descendants of a single conflict that is replaced. -/
def packageLimits (setIterConflicting : SetEntries) (nConflicts : Nat) : Result PoolLimits :=
  if nConflicts = 1 then
    match setIterConflicting.elems with
    | [it] => do
        let conflict ← pool.deref it
        return { ctx.limits with
          descendantCount := ctx.limits.descendantCount + 1
          descendantSize := ctx.limits.descendantSize + conflict.nSizeWithDescendants }
    | _ => .error (.assertion "setIterConflicting.size() == 1")
  else .ok ctx.limits

/-- The second chance of a small transaction with one ancestor. -/
def carveOut (limits : PoolLimits) : PoolLimits :=
  { limits with
    ancestorCount := 2
    descendantCount := limits.descendantCount + 1
    descendantSize := limits.descendantSize + UInt64.ofNat extraDescendantTxSizeLimit }

def packageAncestors (entry : CTxMemPoolEntry) (limits : PoolLimits) : Result SetEntries := do
  match ← pool.calculateMemPoolAncestors env entry limits with
  | some setAncestors => return setAncestors
  | none =>
      rejectIf (extraDescendantTxSizeLimit < (entry.nSize env).toNat)
        (.invalid .txMempoolPolicy rejectNonstandard "too-long-mempool-chain")
      match ← pool.calculateMemPoolAncestors env entry (carveOut limits) with
      | some setAncestors => return setAncestors
      | none => .error (.invalid .txMempoolPolicy rejectNonstandard "too-long-mempool-chain")

def checkReplaced (newFeeRate : CFeeRate) (state : List UInt256 × UInt64) (mi : UInt256) :
    Result (List UInt256 × UInt64) := do
  let (setConflictsParents, nConflictingCount) := state
  let e ← pool.deref mi
  let oldFeeRate ← CFeeRate.new e.getModifiedFee (e.getTxSize env).toNat true
  rejectIf (newFeeRate.nSatoshisPerK ≤ oldFeeRate.nSatoshisPerK)
    (.invalid .txMempoolPolicy rejectInsufficientFee "insufficient fee")
  return (setConflictsParents ++ e.tx.vin.map fun txin => txin.prevout.hash,
    nConflictingCount + e.nCountWithDescendants)

def maxDescendantsToVisit : UInt64 := 100

/-- What the transactions to be evicted pay, and their sizes. -/
def conflictingTotals (allConflicting : SetEntries) : Result (CAmount × UInt64) := do
  let evicted ← allConflicting.elems.mapM pool.deref
  return ((evicted.map CTxMemPoolEntry.getModifiedFee).sum,
    (evicted.map (CTxMemPoolEntry.getTxSize env)).sum)

def checkReplacement (tx : CTransaction) (setIterConflicting : SetEntries) (nModifiedFees : CAmount)
    (nSize : UInt32) : Result (SetEntries × CAmount × UInt64) := do
  let newFeeRate ← CFeeRate.new nModifiedFees nSize.toNat false
  let (setConflictsParents, nConflictingCount) ←
    setIterConflicting.elems.foldlM (checkReplaced env pool newFeeRate) ([], 0)
  rejectIf (maxDescendantsToVisit < nConflictingCount)
    (.invalid .txMempoolPolicy rejectNonstandard "too many potential replacements")
  let allConflicting ← pool.calculateAllDescendants setIterConflicting
  let (nConflictingFees, nConflictingSize) ← conflictingTotals env pool allConflicting
  rejectIf (∃ txin ∈ tx.vin, txin.prevout.hash ∉ setConflictsParents ∧
      txin.prevout.hash ∈ pool.mapTx)
    (.invalid .txMempoolPolicy rejectNonstandard "replacement-adds-unconfirmed")
  rejectIf (nModifiedFees < nConflictingFees)
    (.invalid .txMempoolPolicy rejectInsufficientFee "insufficient fee")
  return (allConflicting, nConflictingFees, nConflictingSize)

def replacementTotals (tx : CTransaction) (checked : EntryChecked)
    (setIterConflicting : SetEntries) :
    Result (SetEntries × CAmount × UInt64) :=
  if checked.conflicts.elems = [] then .ok (∅, 0, 0)
  else checkReplacement env pool tx setIterConflicting checked.nModifiedFees
    (checked.entry.nSize env)

def preChecksPackage (tx : CTransaction) (checked : EntryChecked) : Result Workspace := do
  let entry := checked.entry
  rejectIf (args.nAbsurdFee ≠ 0 ∧ args.nAbsurdFee < entry.nFee)
    (.invalid .txNotStandard rejectHighFee "absurdly-high-fee")
  let setIterConflicting := pool.getIterSet checked.conflicts.elems
  let limits ← packageLimits ctx pool setIterConflicting checked.conflicts.elems.length
  let ancestors ← packageAncestors env pool entry limits
  rejectIf (ancestors.elems.any fun ancestorIt => ancestorIt ∈ checked.conflicts)
    (consensusInvalid "bad-txns-spends-conflicting-tx")
  let (allConflicting, nConflictingFees, nConflictingSize) ←
    replacementTotals env pool tx checked setIterConflicting
  return {
    conflicts := checked.conflicts
    allConflicting
    ancestors
    entry
    nFees := entry.nFee
    nModifiedFees := checked.nModifiedFees
    nConflictingFees
    nConflictingSize }

/-- `PreChecks`, with the view of the inputs for the script checks. -/
def preChecks (tx : CTransaction) : Except AcceptStop (Workspace × CCoinsViewCache) := do
  let checked ← preChecksEntry env ctx args pool tx
  let ws ← (preChecksPackage env ctx args pool tx checked).mapError .failed
  return (ws, checked.view)

def limitMempoolSize (pool : CTxMemPool) : Result CTxMemPool := do
  let pool ← pool.expire env ctx.expiry
  pool.trimToSize env ctx.score ctx.usage ctx.sizelimit

/-- The end of `Finalize`: the pool is trimmed, and the transaction must have stayed. -/
def trimAfterAccept (pool : CTxMemPool) (hash : UInt256) : Result CTxMemPool :=
  if args.bypassLimits then .ok pool
  else do
    let pool ← limitMempoolSize env ctx pool
    rejectIf (hash ∉ pool.mapTx) (.invalid .txMempoolPolicy rejectInsufficientFee "mempool full")
    return pool

def finalize (tx : CTransaction) (ws : Workspace) : Result CTxMemPool := do
  let pool ← pool.removeStaged env ws.allConflicting false
  let pool ← pool.addUnchecked env ws.entry ws.ancestors
  trimAfterAccept env ctx args pool (tx.getHash env.crypto)

/-- `AcceptSingleTransaction`, when it succeeds: the workspace and the pool it leaves. -/
def acceptSingleTransaction (tx : CTransaction) : Except AcceptStop (Workspace × CTxMemPool) := do
  let (ws, view) ← preChecks env ctx args pool tx
  (ctx.scriptChecks pool tx view).mapError .failed
  if args.testAccept then return (ws, pool)
  else
    let pool ← (finalize env ctx args pool tx ws).mapError .failed
    return (ws, pool)

end PreChecks

end Verium
