import Verium.Chain.Forks
import Verium.Coins.Stack
import Verium.Consensus.DisconnectBlock

/-!
Writing the coins database and repairing it. `CCoinsViewDB::BatchWrite` goes to disk in several
batches, each of them atomic; from the first batch on the database is marked with the two heads
between which it lies. `ReplayBlocks` finds the marks at the next start, rolls the old branch back
and the new one forward, and writes the result the same way.
-/

namespace Verium

open Lib

/-- `CCoinsViewDB`: the coins, and the entries `DB_BEST_BLOCK` and `DB_HEAD_BLOCKS`. -/
structure CCoinsViewDB where
  coins : COutPoint → Option Coin
  bestBlock : Option UInt256
  headBlocks : Option (List UInt256)

inductive BatchOp where
  | eraseCoin (outpoint : COutPoint)
  | writeCoin (outpoint : COutPoint) (coin : Coin)
  | eraseBestBlock
  | writeBestBlock (hashBlock : UInt256)
  | eraseHeadBlocks
  | writeHeadBlocks (heads : List UInt256)

namespace CCoinsViewDB

def getBestBlock (db : CCoinsViewDB) : UInt256 :=
  db.bestBlock.getD 0

def getHeadBlocks (db : CCoinsViewDB) : List UInt256 :=
  db.headBlocks.getD []

def asView (db : CCoinsViewDB) : CCoinsView :=
  ⟨db.coins, db.getBestBlock⟩

def applyOp (db : CCoinsViewDB) : BatchOp → CCoinsViewDB
  | .eraseCoin outpoint => { db with coins := Function.update db.coins outpoint none }
  | .writeCoin outpoint coin => { db with coins := Function.update db.coins outpoint (some coin) }
  | .eraseBestBlock => { db with bestBlock := none }
  | .writeBestBlock hashBlock => { db with bestBlock := some hashBlock }
  | .eraseHeadBlocks => { db with headBlocks := none }
  | .writeHeadBlocks heads => { db with headBlocks := some heads }

def writeBatch (db : CCoinsViewDB) (batch : List BatchOp) : CCoinsViewDB :=
  batch.foldl applyOp db

def entryOps (it : (_ : COutPoint) × CCoinsCacheEntry) : List BatchOp :=
  if it.2.dirty then
    [if it.2.coin.isSpent then .eraseCoin it.1 else .writeCoin it.1 it.2.coin]
  else []

/-- The loop of `BatchWrite` with the batch collected so far. `full` says whether the size
estimate of a batch is above the limit. The result is the database after each batch written. -/
def writeBatches (full : List BatchOp → Bool) (hashBlock : UInt256) :
    CCoinsViewDB → List BatchOp → List ((_ : COutPoint) × CCoinsCacheEntry) → List CCoinsViewDB
  | db, batch, [] => [db.writeBatch (batch ++ [.eraseHeadBlocks, .writeBestBlock hashBlock])]
  | db, batch, it :: rest =>
      let batch := batch ++ entryOps it
      if full batch then
        let db := db.writeBatch batch
        db :: writeBatches full hashBlock db [] rest
      else writeBatches full hashBlock db batch rest

/-- The old tip that `BatchWrite` records: the best block, or the one of an interrupted write. -/
def oldTip (db : CCoinsViewDB) (hashBlock : UInt256) : Result UInt256 :=
  if db.getBestBlock = 0 then
    match db.getHeadBlocks with
    | [head, old] => do
        assertThat (head = hashBlock) "old_heads[0] == hashBlock"
        return old
    | _ => .ok 0
  else .ok db.getBestBlock

/-- `BatchWrite(mapCoins, hashBlock)`: the database after each batch. -/
def batchWrite (db : CCoinsViewDB) (full : List BatchOp → Bool)
    (mapCoins : List ((_ : COutPoint) × CCoinsCacheEntry)) (hashBlock : UInt256) :
    Result (List CCoinsViewDB) := do
  assertThat (hashBlock ≠ 0) "!hashBlock.IsNull()"
  let old ← db.oldTip hashBlock
  return writeBatches full hashBlock db [.eraseBestBlock, .writeHeadBlocks [hashBlock, old]]
    mapCoins

end CCoinsViewDB

/-- How `ReplayBlocks` stops early: it logs an error and returns false, or the process does not
get further. -/
inductive ReplayStop where
  | error (message : String)
  | failure (failure : Failure)

/-- What `ReplayBlocks` reads: the block index and the block files. -/
structure ReplayEnv where
  crypto : Crypto
  entry : BlockPtr → CBlockIndex
  blockIndex : UInt256 → Option BlockPtr
  readBlockFromDisk : BlockPtr → Option CBlock
  undoReadFromDisk : BlockPtr → Option (List (List Coin))

section Replay

def CCoinsViewCache.dropCoin (view : CCoinsViewCache) (outpoint : COutPoint) : CCoinsViewCache :=
  match view.spendCoin outpoint with
  | none => view
  | some (_, view) => view

def rollforwardTx (crypto : Crypto) (nHeight : Nat) (inputs : CCoinsViewCache)
    (tx : CTransaction) : Result CCoinsViewCache :=
  let inputs := if tx.isCoinBase then inputs else
    tx.vin.foldl (fun view txin => view.dropCoin txin.prevout) inputs
  -- every addition may be an overwrite
  inputs.addCoins crypto tx nHeight true

variable (env : ReplayEnv)

def rollforwardBlock (inputs : CCoinsViewCache) (pindex : BlockPtr) :
    Except ReplayStop CCoinsViewCache :=
  match env.readBlockFromDisk pindex with
  | none => .error (.error "ReplayBlock(): ReadBlockFromDisk failed")
  | some block =>
      (block.vtx.foldlM (rollforwardTx env.crypto (env.entry pindex).nHeight) inputs).mapError
        .failure

/-- The body of the rollback loop. An unclean result is fine here: the block may never have been
applied in full. -/
def rollbackBlock (cache : CCoinsViewCache) (pindexOld : BlockPtr) :
    Except ReplayStop CCoinsViewCache :=
  let pindex := env.entry pindexOld
  -- never disconnect the genesis block
  if pindex.nHeight = 0 then .ok cache
  else
    match env.readBlockFromDisk pindexOld with
    | none => .error (.error "RollbackBlock(): ReadBlockFromDisk() failed")
    | some block =>
        match disconnectBlock env.crypto block pindex (pindex.pprev.map env.entry)
            (env.undoReadFromDisk pindexOld) cache with
        | .error failure => .error (.failure failure)
        | .ok .failed => .error (.error "RollbackBlock(): DisconnectBlock failed")
        | .ok (.ok view) => .ok view
        | .ok (.unclean view) => .ok view

def rollback (pindexFork : Option BlockPtr) :
    (fuel : Nat) → Option BlockPtr → CCoinsViewCache → Except ReplayStop CCoinsViewCache
  | 0, _, cache => .ok cache
  | fuel + 1, pindexOld, cache =>
      if pindexOld = pindexFork then .ok cache
      else
        match pindexOld with
        | none => .error (.failure (.assertion "pindexOld"))
        | some p => do
            let cache ← rollbackBlock env cache p
            rollback pindexFork fuel (env.entry p).pprev cache

def rollforwardTo (pindexNew : BlockPtr) (cache : CCoinsViewCache) (nHeight : Nat) :
    Except ReplayStop CCoinsViewCache := do
  match ← (getAncestor env.entry pindexNew nHeight).mapError .failure with
  | none => .error (.failure (.assertion "pindex"))
  | some pindex => rollforwardBlock env cache pindex

def rollforward (nForkHeight : Nat) (pindexNew : BlockPtr) (cache : CCoinsViewCache) :
    Except ReplayStop CCoinsViewCache :=
  (List.range' (nForkHeight + 1) ((env.entry pindexNew).nHeight - nForkHeight)).foldlM
    (rollforwardTo env pindexNew) cache

/-- The old tip and the fork. A null hash of the old tip means that nothing had been written. -/
def findFork (hashOld : UInt256) (pindexNew : BlockPtr) :
    Except ReplayStop (Option BlockPtr × Option BlockPtr) :=
  if hashOld = 0 then .ok (none, none)
  else
    match env.blockIndex hashOld with
    | none => .error (.error "ReplayBlocks(): reorganization from unknown block requested")
    | some pindexOld =>
        match lastCommonAncestor env.entry pindexOld pindexNew with
        | .error failure => .error (.failure failure)
        | .ok none => .error (.failure (.assertion "pindexFork != nullptr"))
        | .ok (some pindexFork) => .ok (some pindexOld, some pindexFork)

def replayCache (pindexOld pindexFork : Option BlockPtr) (pindexNew : BlockPtr)
    (cache : CCoinsViewCache) : Except ReplayStop CCoinsViewCache := do
  let rounds := (pindexOld.map fun p => (env.entry p).nHeight + 2).getD 1
  let cache ← rollback env pindexFork rounds pindexOld cache
  let nForkHeight := (pindexFork.map fun p => (env.entry p).nHeight).getD 0
  rollforward env nForkHeight pindexNew cache

/-- `ReplayBlocks`, with the database after each batch that its flush writes. The order of the
hash map and the size limit of a batch are given. -/
def replayBlocks (order : HashOrder) (full : List BatchOp → Bool) (db : CCoinsViewDB) :
    Except ReplayStop (List CCoinsViewDB) :=
  match db.getHeadBlocks with
  | [] => .ok []
  | [hashNew, hashOld] =>
      match env.blockIndex hashNew with
      | none => .error (.error "ReplayBlocks(): reorganization to unknown block requested")
      | some pindexNew => do
          let (pindexOld, pindexFork) ← findFork env hashOld pindexNew
          let cache ← replayCache env pindexOld pindexFork pindexNew ⟨db.asView, 0, ∅, 0⟩
          let cache := cache.setBestBlock (env.entry pindexNew).hashBlock
          (db.batchWrite full (order.visit cache.cacheCoins) cache.hashBlock).mapError .failure
  | _ => .error (.error "ReplayBlocks(): unknown inconsistent state")

end Replay

end Verium
