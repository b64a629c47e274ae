import Verium.Lib.SortedSet
import Verium.Mempool.Entry

/-!
`CTxMemPool`. An iterator into `mapTx` is the hash of the transaction it points at, and a set of
iterators is walked in the order of the hashes. The orders of the ordered indices of `mapTx`, and
the memory in use, are left to the functions that are passed in. The counters that only other
parts of the node read are left out.
-/

namespace Verium

open Lib

/-- The order of `uint256`, which compares the bytes from the first one on. -/
def hashOrder : UInt256 ↪ Nat where
  toFun h := leNat (serUInt256 h).reverse
  inj' := by
    intro a b h
    have hbytes : (serUInt256 a).reverse = (serUInt256 b).reverse := by
      have hlength : (serUInt256 a).reverse.length = (serUInt256 b).reverse.length := by
        simp [serUInt256]
      rw [← leBytes_leNat (serUInt256 a).reverse, ← leBytes_leNat (serUInt256 b).reverse, hlength]
      exact congrArg _ h
    have hserialized := congrArg leNat (List.reverse_injective hbytes)
    unfold serUInt256 at hserialized
    rw [leNat_leBytes_of_lt (lt_of_lt_of_eq a.isLt (by norm_num)),
      leNat_leBytes_of_lt (lt_of_lt_of_eq b.isLt (by norm_num))] at hserialized
    exact BitVec.eq_of_toNat_eq hserialized

abbrev SetEntries := SortedSet hashOrder

structure TxLinks where
  parents : SetEntries
  children : SetEntries
deriving DecidableEq

def TxLinks.empty : TxLinks := ⟨∅, ∅⟩

structure CTxMemPool where
  mapTx : AList fun _ : UInt256 => CTxMemPoolEntry
  mapLinks : AList fun _ : UInt256 => TxLinks
  mapNextTx : AList fun _ : COutPoint => CTransaction
  mapDeltas : AList fun _ : UInt256 => CAmount
  vTxHashes : List (UInt256 × UInt256)
  totalTxSize : UInt64

/-- The limits of `CalculateMemPoolAncestors`. -/
structure PoolLimits where
  ancestorCount : UInt64
  ancestorSize : UInt64
  descendantCount : UInt64
  descendantSize : UInt64

def PoolLimits.none : PoolLimits := ⟨-1, -1, -1, -1⟩

namespace CTxMemPool

def empty : CTxMemPool := ⟨∅, ∅, ∅, ∅, [], 0⟩

def deref (pool : CTxMemPool) (it : UInt256) : Result CTxMemPoolEntry :=
  match pool.mapTx.lookup it with
  | some e => .ok e
  | none => .error (.exception "dereferenced an invalid iterator")

def modify (pool : CTxMemPool) (it : UInt256) (f : CTxMemPoolEntry → Result CTxMemPoolEntry) :
    Result CTxMemPool := do
  let e ← pool.deref it
  let e ← f e
  return { pool with mapTx := pool.mapTx.insert it e }

def modifyAll (pool : CTxMemPool) (its : SetEntries)
    (f : CTxMemPoolEntry → Result CTxMemPoolEntry) : Result CTxMemPool :=
  its.elems.foldlM (fun pool it => pool.modify it f) pool

def getMemPoolParents (pool : CTxMemPool) (it : UInt256) : Result SetEntries :=
  match pool.mapLinks.lookup it with
  | some links => .ok links.parents
  | none => .error (.assertion "it != mapLinks.end()")

def getMemPoolChildren (pool : CTxMemPool) (it : UInt256) : Result SetEntries :=
  match pool.mapLinks.lookup it with
  | some links => .ok links.children
  | none => .error (.assertion "it != mapLinks.end()")

/-- `mapLinks[it]`, which makes an entry where there is none. -/
def linksOf (pool : CTxMemPool) (it : UInt256) : TxLinks :=
  (pool.mapLinks.lookup it).getD TxLinks.empty

def updateChild (pool : CTxMemPool) (entry child : UInt256) (add : Bool) : CTxMemPool :=
  let links := pool.linksOf entry
  let children := if add then links.children.insert child else links.children.erase child
  { pool with mapLinks := pool.mapLinks.insert entry { links with children } }

def updateParent (pool : CTxMemPool) (entry parent : UInt256) (add : Bool) : CTxMemPool :=
  let links := pool.linksOf entry
  let parents := if add then links.parents.insert parent else links.parents.erase parent
  { pool with mapLinks := pool.mapLinks.insert entry { links with parents } }

def getIterSet (pool : CTxMemPool) (hashes : List UInt256) : SetEntries :=
  SortedSet.ofList (hashes.filter fun h => h ∈ pool.mapTx)

def stageChild (setDescendants stage : SetEntries) (child : UInt256) : SetEntries :=
  if child ∈ setDescendants then stage else stage.insert child

def descendantsLoop (pool : CTxMemPool) :
    (fuel : Nat) → (stage setDescendants : SetEntries) → Result SetEntries
  | 0, _, setDescendants => .ok setDescendants
  | fuel + 1, stage, setDescendants =>
      match stage.elems with
      | [] => .ok setDescendants
      | it :: _ => do
          let setDescendants := setDescendants.insert it
          let stage := stage.erase it
          let setChildren ← pool.getMemPoolChildren it
          descendantsLoop pool fuel (setChildren.elems.foldl (stageChild setDescendants) stage)
            setDescendants

/-- `CalculateDescendants(entryit, setDescendants)`. Each round puts another entry in the set. -/
def calculateDescendants (pool : CTxMemPool) (entryit : UInt256) (setDescendants : SetEntries) :
    Result SetEntries :=
  pool.descendantsLoop (pool.mapTx.keys.length + 1)
    (if entryit ∈ setDescendants then ∅ else SortedSet.singleton entryit) setDescendants

/-- `CalculateDescendants` for each iterator of a set, into the same result. -/
def calculateAllDescendants (pool : CTxMemPool) (its : SetEntries) : Result SetEntries :=
  its.elems.foldlM (fun setDescendants it => pool.calculateDescendants it setDescendants) ∅

/-- The first loop of `CalculateMemPoolAncestors`; `none` when there are too many parents. -/
def searchForParents (pool : CTxMemPool) (limitAncestorCount : UInt64) (parentHashes : SetEntries)
    (txin : CTxIn) : Option SetEntries :=
  if txin.prevout.hash ∈ pool.mapTx then
    let parentHashes := parentHashes.insert txin.prevout.hash
    if limitAncestorCount < UInt64.ofNat (parentHashes.elems.length + 1) then none
    else some parentHashes
  else some parentHashes

def stageParent (setAncestors : SetEntries) (limitAncestorCount : UInt64)
    (parentHashes : SetEntries) (phash : UInt256) : Option SetEntries :=
  let parentHashes :=
    if phash ∈ setAncestors then parentHashes else parentHashes.insert phash
  if limitAncestorCount <
      UInt64.ofNat (parentHashes.elems.length + setAncestors.elems.length + 1) then none
  else some parentHashes

/-- The main loop of `CalculateMemPoolAncestors`; `none` when a limit is exceeded. -/
def ancestorsLoop (env : PoolEnv) (pool : CTxMemPool) (limits : PoolLimits) (entrySize : UInt64) :
    (fuel : Nat) → (parentHashes setAncestors : SetEntries) → (totalSize : UInt64) →
    Result (Option SetEntries)
  | 0, _, setAncestors, _ => .ok (some setAncestors)
  | fuel + 1, parentHashes, setAncestors, totalSize =>
      match parentHashes.elems with
      | [] => .ok (some setAncestors)
      | stageit :: _ => do
          let setAncestors := setAncestors.insert stageit
          let parentHashes := parentHashes.erase stageit
          let e ← pool.deref stageit
          let totalSize := totalSize + e.getTxSize env
          if limits.descendantSize < e.nSizeWithDescendants + entrySize then return none
          else if limits.descendantCount < e.nCountWithDescendants + 1 then return none
          else if limits.ancestorSize < totalSize then return none
          else
            let setMemPoolParents ← pool.getMemPoolParents stageit
            match setMemPoolParents.elems.foldlM (stageParent setAncestors limits.ancestorCount)
                parentHashes with
            | none => return none
            | some parentHashes =>
                ancestorsLoop env pool limits entrySize fuel parentHashes setAncestors totalSize

/-- `CalculateMemPoolAncestors` for an entry that need not be in the pool: the parents are
searched for. -/
def calculateMemPoolAncestors (env : PoolEnv) (pool : CTxMemPool) (entry : CTxMemPoolEntry)
    (limits : PoolLimits) : Result (Option SetEntries) :=
  match entry.tx.vin.foldlM (pool.searchForParents limits.ancestorCount) ∅ with
  | none => .ok none
  | some parentHashes =>
      pool.ancestorsLoop env limits (entry.getTxSize env) (pool.mapTx.keys.length + 1)
        parentHashes ∅ (entry.getTxSize env)

/-- `CalculateMemPoolAncestors` without limits for an entry of the pool, with
`fSearchForParents = false`. -/
def ancestorsByLinks (env : PoolEnv) (pool : CTxMemPool) (it : UInt256) : Result SetEntries := do
  let e ← pool.deref it
  let parentHashes ← pool.getMemPoolParents it
  let setAncestors ← pool.ancestorsLoop env .none (e.getTxSize env) (pool.mapTx.keys.length + 1)
    parentHashes ∅ (e.getTxSize env)
  return setAncestors.getD ∅

section Updates

variable (env : PoolEnv)

def updateAncestorsOf (pool : CTxMemPool) (add : Bool) (it : UInt256) (setAncestors : SetEntries) :
    Result CTxMemPool := do
  let parentIters ← pool.getMemPoolParents it
  let pool := parentIters.elems.foldl (fun pool piter => pool.updateChild piter it add) pool
  let e ← pool.deref it
  let updateCount : Int64 := if add then 1 else -1
  let updateSize := (updateCount.toUInt64 * e.getTxSize env).toInt64
  let updateFee := updateCount * e.getModifiedFee
  pool.modifyAll setAncestors
    (CTxMemPoolEntry.updateDescendantState updateSize updateFee updateCount)

def updateEntryForAncestors (pool : CTxMemPool) (it : UInt256) (setAncestors : SetEntries) :
    Result CTxMemPool := do
  let ancestors ← setAncestors.elems.mapM pool.deref
  let updateCount := Int64.ofNat setAncestors.elems.length
  let updateSize := (ancestors.map (CTxMemPoolEntry.getTxSize env)).sum.toInt64
  let updateFee := (ancestors.map CTxMemPoolEntry.getModifiedFee).sum
  let updateSigOpsCost := (ancestors.map CTxMemPoolEntry.sigOpCost).sum
  pool.modify it
    (CTxMemPoolEntry.updateAncestorState updateSize updateFee updateCount updateSigOpsCost)

def updateChildrenForRemoval (pool : CTxMemPool) (it : UInt256) : Result CTxMemPool := do
  let setMemPoolChildren ← pool.getMemPoolChildren it
  return setMemPoolChildren.elems.foldl (fun pool updateIt => pool.updateParent updateIt it false)
    pool

/-- The first loop of `UpdateForRemoveFromMempool`: the descendants lose an ancestor. -/
def removeFromDescendants (pool : CTxMemPool) (removeIt : UInt256) : Result CTxMemPool := do
  let setDescendants ← pool.calculateDescendants removeIt ∅
  let e ← pool.deref removeIt
  let modifySize := -(e.getTxSize env).toInt64
  let modifyFee := -e.getModifiedFee
  let modifySigOps := (-e.sigOpCost).toInt32
  pool.modifyAll (setDescendants.erase removeIt)
    (CTxMemPoolEntry.updateAncestorState modifySize modifyFee (-1) modifySigOps.toInt64)

/-- The second loop of `UpdateForRemoveFromMempool`: the ancestors lose a descendant. -/
def removeFromAncestors (pool : CTxMemPool) (removeIt : UInt256) : Result CTxMemPool := do
  let setAncestors ← pool.ancestorsByLinks env removeIt
  pool.updateAncestorsOf env false removeIt setAncestors

def removeFromAllDescendants (pool : CTxMemPool) (entriesToRemove : SetEntries) :
    (updateDescendants : Bool) → Result CTxMemPool
  | true => entriesToRemove.elems.foldlM (removeFromDescendants env) pool
  | false => .ok pool

def updateForRemoveFromMempool (pool : CTxMemPool) (entriesToRemove : SetEntries)
    (updateDescendants : Bool) : Result CTxMemPool := do
  let pool ← pool.removeFromAllDescendants env entriesToRemove updateDescendants
  let pool ← entriesToRemove.elems.foldlM (removeFromAncestors env) pool
  entriesToRemove.elems.foldlM updateChildrenForRemoval pool

end Updates

section AddRemove

variable (env : PoolEnv)

/-- `mapTx.insert` and `mapLinks.insert`, which leave what is there. -/
def insertEntry (pool : CTxMemPool) (hash : UInt256) (entry : CTxMemPoolEntry) : CTxMemPool :=
  { pool with
    mapTx := if hash ∈ pool.mapTx then pool.mapTx else pool.mapTx.insert hash entry
    mapLinks := if hash ∈ pool.mapLinks then pool.mapLinks
      else pool.mapLinks.insert hash TxLinks.empty }

def applyDelta (pool : CTxMemPool) (hash : UInt256) (nFeeDelta : CAmount) : CAmount :=
  nFeeDelta + (pool.mapDeltas.lookup hash).getD 0

def applyWaitingDelta (pool : CTxMemPool) (hash : UInt256) : Result CTxMemPool :=
  let delta := pool.applyDelta hash 0
  if delta = 0 then .ok pool
  else pool.modify hash fun e => .ok (e.updateFeeDelta delta)

def spendOutpoint (tx : CTransaction) (pool : CTxMemPool) (txin : CTxIn) : CTxMemPool :=
  { pool with
    mapNextTx := if txin.prevout ∈ pool.mapNextTx then pool.mapNextTx
      else pool.mapNextTx.insert txin.prevout tx }

/-- Record what a new transaction spends, and link it to its parents in the pool. -/
def linkParents (pool : CTxMemPool) (newit : UInt256) (tx : CTransaction) : CTxMemPool :=
  let pool := tx.vin.foldl (spendOutpoint tx) pool
  (pool.getIterSet (tx.vin.map fun txin => txin.prevout.hash)).elems.foldl
    (fun pool pit => pool.updateParent newit pit true) pool

def pushHash (pool : CTxMemPool) (witnessHash hash : UInt256) : Result CTxMemPool :=
  let vTxHashes := pool.vTxHashes ++ [(witnessHash, hash)]
  { pool with vTxHashes }.modify hash fun e =>
    .ok { e with vTxHashesIdx := vTxHashes.length - 1 }

def addUnchecked (pool : CTxMemPool) (entry : CTxMemPoolEntry) (setAncestors : SetEntries) :
    Result CTxMemPool := do
  let newit := entry.tx.getHash env.crypto
  let pool := pool.insertEntry newit entry
  let pool ← pool.applyWaitingDelta newit
  let e ← pool.deref newit
  let pool := pool.linkParents newit e.tx
  let pool ← pool.updateAncestorsOf env true newit setAncestors
  let pool ← pool.updateEntryForAncestors env newit setAncestors
  let pool := { pool with totalTxSize := pool.totalTxSize + entry.getTxSize env }
  pool.pushHash (e.tx.getWitnessHash env.crypto) newit

/-- The part of `removeUnchecked` that takes an entry out of `vTxHashes`: the last one moves into
the hole. -/
def popHash (pool : CTxMemPool) (idx : Nat) : CTxMemPool :=
  match pool.vTxHashes.getLast? with
  | none => pool
  | some back =>
      if 1 < pool.vTxHashes.length then
        let mapTx := match pool.mapTx.lookup back.2 with
          | some e => pool.mapTx.insert back.2 { e with vTxHashesIdx := idx }
          | none => pool.mapTx
        { pool with mapTx, vTxHashes := (pool.vTxHashes.set idx back).dropLast }
      else { pool with vTxHashes := [] }

def removeUnchecked (pool : CTxMemPool) (it : UInt256) : Result CTxMemPool := do
  let e ← pool.deref it
  let mapNextTx := e.tx.vin.foldl (fun m txin => m.erase txin.prevout) pool.mapNextTx
  let pool := { pool with mapNextTx }.popHash e.vTxHashesIdx
  return { pool with
    totalTxSize := pool.totalTxSize - e.getTxSize env
    mapLinks := pool.mapLinks.erase it
    mapTx := pool.mapTx.erase it }

def removeStaged (pool : CTxMemPool) (stage : SetEntries) (updateDescendants : Bool) :
    Result CTxMemPool := do
  let pool ← pool.updateForRemoveFromMempool env stage updateDescendants
  stage.elems.foldlM (removeUnchecked env) pool

def clear (pool : CTxMemPool) : CTxMemPool :=
  { pool with mapLinks := ∅, mapTx := ∅, mapNextTx := ∅, totalTxSize := 0 }

end AddRemove

section Removal

variable (env : PoolEnv)

def removeWithDescendants (pool : CTxMemPool) (txToRemove : SetEntries) : Result CTxMemPool := do
  let setAllRemoves ← pool.calculateAllDescendants txToRemove
  pool.removeStaged env setAllRemoves false

/-- The children of a transaction that is not in the pool, by its outputs. -/
def childByOutput (pool : CTxMemPool) (hash : UInt256) (txToRemove : SetEntries) (i : Nat) :
    Result SetEntries :=
  match pool.mapNextTx.lookup ⟨hash, UInt32.ofNat i⟩ with
  | none => .ok txToRemove
  | some next => do
      assertThat (next.getHash env.crypto ∈ pool.mapTx) "nextit != mapTx.end()"
      return txToRemove.insert (next.getHash env.crypto)

/-- `txToRemove` of `removeRecursive`. -/
def recursiveRoots (pool : CTxMemPool) (origTx : CTransaction) : Result SetEntries :=
  let hash := origTx.getHash env.crypto
  if hash ∈ pool.mapTx then .ok (SortedSet.singleton hash)
  else (List.range origTx.vout.length).foldlM (pool.childByOutput env hash) ∅

def removeRecursive (pool : CTxMemPool) (origTx : CTransaction) : Result CTxMemPool := do
  let txToRemove ← pool.recursiveRoots env origTx
  pool.removeWithDescendants env txToRemove

/-- What `removeForReorg` asks of the chain and the coins. -/
structure ReorgView where
  checkFinalTx : CTransaction → Bool
  testLockPointValidity : LockPoints → Bool
  /-- `CheckSequenceLocks(pool, tx, flags, &lp, useExistingLockPoints)`, with the lock points it
  leaves. -/
  checkSequenceLocks : CTxMemPool → CTransaction → LockPoints → Bool → Bool × LockPoints
  accessCoin : COutPoint → Coin
  nMemPoolHeight : Nat
  sanityCheck : Bool

/-- The loop over the inputs of a transaction that spends a coinbase: is it no longer valid? -/
def spendsImmature (pool : CTxMemPool) (view : ReorgView) : List CTxIn → Result Bool
  | [] => .ok false
  | txin :: rest =>
      if txin.prevout.hash ∈ pool.mapTx then spendsImmature pool view rest
      else do
        let coin := view.accessCoin txin.prevout
        assertThat (view.sanityCheck → ¬ coin.isSpent) "!coin.IsSpent()"
        if coin.isSpent ∨ (coin.fCoinBase ∧
            (view.nMemPoolHeight : Int) - coin.nHeight < coinbaseMaturity) then return true
        else spendsImmature pool view rest

/-- The entry goes: it is not final, its sequence locks are not met or it spends an immature
coinbase. -/
def expelled (pool : CTxMemPool) (view : ReorgView) (e : CTxMemPoolEntry) : Result Bool :=
  let validLP := view.testLockPointValidity e.lockPoints
  if ¬ view.checkFinalTx e.tx ∨
      ¬ (view.checkSequenceLocks pool e.tx e.lockPoints validLP).1 then .ok true
  else if e.spendsCoinbase then spendsImmature pool view e.tx.vin
  else .ok false

def reviewEntry (view : ReorgView) (state : SetEntries × CTxMemPool) (it : UInt256) :
    Result (SetEntries × CTxMemPool) := do
  let (txToRemove, pool) := state
  let e ← pool.deref it
  let out ← expelled pool view e
  let validLP := view.testLockPointValidity e.lockPoints
  let lockPoints := (view.checkSequenceLocks pool e.tx e.lockPoints validLP).2
  let lockPoints := if view.checkFinalTx e.tx then lockPoints else e.lockPoints
  let pool := if validLP then pool
    else { pool with mapTx := pool.mapTx.insert it { e with lockPoints } }
  return (if out then txToRemove.insert it else txToRemove, pool)

def removeForReorg (pool : CTxMemPool) (view : ReorgView) : Result CTxMemPool := do
  let (txToRemove, pool) ← pool.mapTx.keys.foldlM (reviewEntry view) (∅, pool)
  pool.removeWithDescendants env txToRemove

def clearPrioritisation (pool : CTxMemPool) (hash : UInt256) : CTxMemPool :=
  { pool with mapDeltas := pool.mapDeltas.erase hash }

def removeConflict (tx : CTransaction) (pool : CTxMemPool) (txin : CTxIn) : Result CTxMemPool :=
  match pool.mapNextTx.lookup txin.prevout with
  | none => .ok pool
  | some txConflict =>
      -- transactions are compared by their hashes
      if txConflict.getHash env.crypto = tx.getHash env.crypto then .ok pool
      else
        (pool.clearPrioritisation (txConflict.getHash env.crypto)).removeRecursive env txConflict

def removeConflicts (pool : CTxMemPool) (tx : CTransaction) : Result CTxMemPool :=
  tx.vin.foldlM (removeConflict env tx) pool

def removeMined (pool : CTxMemPool) (hash : UInt256) : Result CTxMemPool :=
  if hash ∈ pool.mapTx then pool.removeStaged env (SortedSet.singleton hash) true else .ok pool

def removeBlockTx (pool : CTxMemPool) (tx : CTransaction) : Result CTxMemPool := do
  let pool ← pool.removeMined env (tx.getHash env.crypto)
  let pool ← pool.removeConflicts env tx
  return pool.clearPrioritisation (tx.getHash env.crypto)

def removeForBlock (pool : CTxMemPool) (vtx : List CTransaction) : Result CTxMemPool :=
  vtx.foldlM (removeBlockTx env) pool

/-- `Expire(time)`: the entries that came in before the time go. -/
def expire (pool : CTxMemPool) (time : Int) : Result CTxMemPool :=
  pool.removeWithDescendants env (SortedSet.ofList (pool.mapTx.keys.filter fun it =>
    (pool.mapTx.lookup it).any fun e => e.nTime < time))

/-- The first entry in the order of `descendant_score`. -/
def firstByScore (score : CTxMemPoolEntry → CTxMemPoolEntry → Bool) :
    List ((_ : UInt256) × CTxMemPoolEntry) → Option UInt256
  | [] => none
  | e :: rest => (rest.foldl (fun best e => if score e.2 best.2 then e else best) e).1

/-- The loop of `TrimToSize`; each round takes at least one entry out. -/
def trimLoop (score : CTxMemPoolEntry → CTxMemPoolEntry → Bool) (usage : CTxMemPool → Nat)
    (sizelimit : Nat) : (fuel : Nat) → CTxMemPool → Result CTxMemPool
  | 0, pool => .ok pool
  | fuel + 1, pool =>
      match firstByScore score pool.mapTx.entries with
      | none => .ok pool
      | some it =>
          if sizelimit < usage pool then do
            let pool ← pool.removeWithDescendants env (SortedSet.singleton it)
            trimLoop score usage sizelimit fuel pool
          else .ok pool

/-- `TrimToSize(sizelimit)`, for an order of `descendant_score` and a measure of the memory. -/
def trimToSize (pool : CTxMemPool) (score : CTxMemPoolEntry → CTxMemPoolEntry → Bool)
    (usage : CTxMemPool → Nat) (sizelimit : Nat) : Result CTxMemPool :=
  trimLoop env score usage sizelimit pool.mapTx.keys.length pool

/-- The part of `PrioritiseTransaction` for a transaction of the pool. -/
def prioritiseEntry (pool : CTxMemPool) (it : UInt256) (delta nFeeDelta : CAmount) :
    Result CTxMemPool := do
  let pool ← pool.modify it fun e => .ok (e.updateFeeDelta delta)
  let setAncestors ← pool.ancestorsByLinks env it
  let pool ← pool.modifyAll setAncestors (CTxMemPoolEntry.updateDescendantState 0 nFeeDelta 0)
  let setDescendants ← pool.calculateDescendants it ∅
  pool.modifyAll (setDescendants.erase it) (CTxMemPoolEntry.updateAncestorState 0 nFeeDelta 0 0)

def prioritiseTransaction (pool : CTxMemPool) (hash : UInt256) (nFeeDelta : CAmount) :
    Result CTxMemPool :=
  let delta := pool.applyDelta hash nFeeDelta
  let pool := { pool with mapDeltas := pool.mapDeltas.insert hash delta }
  if hash ∈ pool.mapTx then pool.prioritiseEntry env hash delta nFeeDelta else .ok pool

end Removal

end CTxMemPool

end Verium
