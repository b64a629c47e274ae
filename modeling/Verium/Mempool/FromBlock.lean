import Verium.Mempool.Pool

/-!
`UpdateTransactionsFromBlock`: after transactions of disconnected blocks were added again, their
links to the children that were in the pool already are made, and the statistics of both sides
are completed.
-/

namespace Verium

open Lib

namespace CTxMemPool

abbrev CacheMap := AList fun _ : UInt256 => SetEntries

/-- One round of the inner loop of `UpdateForDescendants`: stage and descendants so far. -/
def stageCached (cachedDescendants : CacheMap) (state : SetEntries × SetEntries)
    (childEntry : UInt256) : SetEntries × SetEntries :=
  let (stageEntries, setAllDescendants) := state
  match cachedDescendants.lookup childEntry with
  | some cached => (stageEntries, setAllDescendants.insertMany cached.elems)
  | none =>
      (if childEntry ∈ setAllDescendants then stageEntries else stageEntries.insert childEntry,
        setAllDescendants)

/-- The loop of `UpdateForDescendants`. -/
def cachedLoop (pool : CTxMemPool) (cachedDescendants : CacheMap) :
    (fuel : Nat) → (stageEntries setAllDescendants : SetEntries) → Result SetEntries
  | 0, _, setAllDescendants => .ok setAllDescendants
  | fuel + 1, stageEntries, setAllDescendants =>
      match stageEntries.elems with
      | [] => .ok setAllDescendants
      | cit :: _ => do
          let setChildren ← pool.getMemPoolChildren cit
          let (stageEntries, setAllDescendants) := setChildren.elems.foldl
            (stageCached cachedDescendants) (stageEntries.erase cit, setAllDescendants.insert cit)
          cachedLoop pool cachedDescendants fuel stageEntries setAllDescendants

/-- `cachedDescendants[updateIt]`, which is made by the first insertion. -/
def cacheDescendants (cachedDescendants : CacheMap) (updateIt : UInt256) (counted : SetEntries) :
    CacheMap :=
  if counted.elems = [] then cachedDescendants
  else cachedDescendants.insert updateIt
    (((cachedDescendants.lookup updateIt).getD ∅).insertMany counted.elems)

variable (env : PoolEnv)

def updateForDescendants (pool : CTxMemPool) (updateIt : UInt256) (cachedDescendants : CacheMap)
    (setExclude : List UInt256) : Result (CacheMap × CTxMemPool) := do
  let stageEntries ← pool.getMemPoolChildren updateIt
  let setAllDescendants ← pool.cachedLoop cachedDescendants (pool.mapTx.keys.length + 1)
    stageEntries ∅
  let counted := setAllDescendants.filter fun cit => cit ∉ setExclude
  let descendants ← counted.elems.mapM pool.deref
  let e ← pool.deref updateIt
  let pool ← pool.modifyAll counted (CTxMemPoolEntry.updateAncestorState
    (e.getTxSize env).toInt64 e.getModifiedFee 1 e.sigOpCost)
  let modifySize := (descendants.map (CTxMemPoolEntry.getTxSize env)).sum.toInt64
  let modifyFee := (descendants.map CTxMemPoolEntry.getModifiedFee).sum
  let modifyCount := Int64.ofNat counted.elems.length
  let pool ← pool.modify updateIt
    (CTxMemPoolEntry.updateDescendantState modifySize modifyFee modifyCount)
  return (cacheDescendants cachedDescendants updateIt counted, pool)

/-- The children of a transaction by `mapNextTx`. -/
def childrenByOutputs (pool : CTxMemPool) (hash : UInt256) : SetEntries :=
  SortedSet.ofList ((pool.mapNextTx.entries.filter fun spent => spent.1.hash = hash).map
    fun spent => spent.2.getHash env.crypto)

/-- Link a transaction with a child that is not one of the transactions added again. -/
def linkChild (setAlreadyIncluded : List UInt256) (it : UInt256) (pool : CTxMemPool)
    (childIter : UInt256) : Result CTxMemPool := do
  assertThat (childIter ∈ pool.mapTx) "childIter != mapTx.end()"
  return if childIter ∈ setAlreadyIncluded then pool
    else (pool.updateChild it childIter true).updateParent childIter it true

/-- One round of the loop of `UpdateTransactionsFromBlock`. -/
def updateTransaction (setAlreadyIncluded : List UInt256) (state : CacheMap × CTxMemPool)
    (hash : UInt256) : Result (CacheMap × CTxMemPool) :=
  let (cache, pool) := state
  if hash ∈ pool.mapTx then do
    let pool ← (pool.childrenByOutputs env hash).elems.foldlM
      (linkChild setAlreadyIncluded hash) pool
    pool.updateForDescendants env hash cache setAlreadyIncluded
  else .ok (cache, pool)

def updateTransactionsFromBlock (pool : CTxMemPool) (vHashesToUpdate : List UInt256) :
    Result CTxMemPool := do
  let (_, pool) ← vHashesToUpdate.reverse.foldlM (updateTransaction env vHashesToUpdate) (∅, pool)
  return pool

end CTxMemPool

end Verium
