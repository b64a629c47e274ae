import Mathlib.Data.List.AList
import Verium.Consensus.CheckBlock

/-!
Compact blocks: the message that announces a block by short transaction ids, and the partially
downloaded block that is filled from the message, the memory pool and a later answer of the peer
(`blockencodings.cpp`). The counts that only the debug log reads are left out.
-/

namespace Verium

open Lib

inductive ReadStatus where
  | ok
  | invalid
  | failed
  | checkBlockFailed
deriving DecidableEq, Repr

structure PrefilledTransaction where
  /-- The offset from the position after the last prefilled transaction. -/
  index : UInt16
  tx : CTransaction
deriving DecidableEq, Repr

/-- A `cmpctblock` message. Deserialization refuses one whose positions overflow 16 bits. -/
structure CBlockHeaderAndShortTxIDs where
  header : CBlockHeader
  nonce : UInt64
  shorttxids : List UInt64
  prefilledtxn : List PrefilledTransaction
  count_le : shorttxids.length + prefilledtxn.length ≤ 65535

structure BlockTransactions where
  blockhash : UInt256
  txn : List CTransaction
deriving DecidableEq, Repr

/-- What the compact block code calls: the hash functions, and the number of entries that an
`unordered_map` with the given keys has in the bucket of a key, which is up to the library. -/
structure CompactCode where
  crypto : Crypto
  sipHashUint256 : (k0 k1 : UInt64) → UInt256 → UInt64
  bucketSize : (keys : List UInt64) → UInt64 → Nat

namespace CBlockHeaderAndShortTxIDs

def blockTxCount (cmpctblock : CBlockHeaderAndShortTxIDs) : Nat :=
  cmpctblock.shorttxids.length + cmpctblock.prefilledtxn.length

def fillShortTxIDSelector (code : CompactCode) (cmpctblock : CBlockHeaderAndShortTxIDs) :
    UInt64 × UInt64 :=
  let shorttxidhash :=
    code.crypto.sha256 (cmpctblock.header.serialize ++ serUInt64 cmpctblock.nonce)
  (getUint64 shorttxidhash 0, getUint64 shorttxidhash 1)

def getShortID (code : CompactCode) (cmpctblock : CBlockHeaderAndShortTxIDs)
    (txhash : UInt256) : UInt64 :=
  let (shorttxidk0, shorttxidk1) := cmpctblock.fillShortTxIDSelector code
  code.sipHashUint256 shorttxidk0 shorttxidk1 txhash &&& 0xffffffffffff

end CBlockHeaderAndShortTxIDs

abbrev TxSlots := List (Option CTransaction)

structure PartiallyDownloadedBlock where
  txnAvailable : TxSlots
  mempoolCount : Nat
  header : CBlockHeader
deriving DecidableEq, Repr

def minSerializableTransactionWeight : Nat := witnessScaleFactor * 10

namespace PartiallyDownloadedBlock

def new : PartiallyDownloadedBlock := ⟨[], 0, CBlockHeader.null⟩

section InitData

/-- The loop over the prefilled transactions, from the one with number `i` on. False when the
message is invalid; what was placed before stays. -/
def placePrefilled (shortCount : Nat) :
    List PrefilledTransaction → (i : Nat) → (lastprefilledindex : Int) → TxSlots →
      Bool × TxSlots
  | [], _, _, slots => (true, slots)
  | prefilled :: rest, i, lastprefilledindex, slots =>
      if prefilled.tx.isNull then (false, slots)
      else
        let lastprefilledindex := lastprefilledindex + prefilled.index.toNat + 1
        if 65535 < lastprefilledindex then (false, slots)
        else if shortCount + i < lastprefilledindex.toNat then (false, slots)
        else
          placePrefilled shortCount rest (i + 1) lastprefilledindex
            (slots.set lastprefilledindex.toNat (some prefilled.tx))

def nextFree (slots : TxSlots) (pos : Nat) : Nat :=
  pos + ((slots.drop pos).takeWhile Option.isSome).length

/-- The loop that gives each short id the next empty position. None when a bucket of the map
holds more than twelve entries. -/
def mapShortIDs (code : CompactCode) (slots : TxSlots) :
    List UInt64 → (i indexOffset : Nat) → (AList fun _ : UInt64 => Nat) →
      Option (AList fun _ : UInt64 => Nat)
  | [], _, _, shorttxids => some shorttxids
  | shortid :: rest, i, indexOffset, shorttxids =>
      let pos := nextFree slots (i + indexOffset)
      let shorttxids := shorttxids.insert shortid pos
      if 12 < code.bucketSize shorttxids.keys shortid then none
      else mapShortIDs code slots rest (i + 1) (pos - i) shorttxids

/-- The slots while the pools are searched: `have_txn` marks those that a pool has filled. -/
structure PoolMatch where
  slots : TxSlots
  haveTxn : List Bool
  mempoolCount : Nat

variable (shorttxids : AList fun _ : UInt64 => Nat)
  (conflicts : (held : CTransaction) → (found : Option CTransaction) → Result Bool)

/-- One transaction of a pool against the short ids. The first match fills the slot; a second
one that conflicts with it empties the slot for good. -/
def PoolMatch.matchTx (shortid : UInt64) (tx : Option CTransaction) (found : PoolMatch) :
    Result PoolMatch :=
  match shorttxids.lookup shortid with
  | none => .ok found
  | some pos =>
      if ¬ found.haveTxn.getD pos false then
        .ok ⟨found.slots.set pos tx, found.haveTxn.set pos true, found.mempoolCount + 1⟩
      else
        match found.slots.getD pos none with
        | none => .ok found
        | some held => do
            if ← conflicts held tx then
              return { found with
                slots := found.slots.set pos none
                mempoolCount := found.mempoolCount - 1 }
            else return found

def PoolMatch.matchPool (getShortID : UInt256 → UInt64) :
    List (UInt256 × Option CTransaction) → PoolMatch → Result PoolMatch
  | [], found => .ok found
  | (hash, tx) :: rest, found => do
      let found ← found.matchTx shorttxids conflicts (getShortID hash) tx
      if found.mempoolCount = shorttxids.keys.length then return found
      else found.matchPool getShortID rest

end InitData

variable (code : CompactCode) (ctx : CheckContext)

/-- Whether an extra transaction differs from the one that is held, which is read to find out. -/
def extraConflicts (held : CTransaction) : Option CTransaction → Result Bool
  | none => .error (.exception "null pointer")
  | some tx => .ok (held.getWitnessHash code.crypto ≠ tx.getWitnessHash code.crypto)

def initSlots (partialBlock : PartiallyDownloadedBlock)
    (cmpctblock : CBlockHeaderAndShortTxIDs) (vTxHashes : List (UInt256 × CTransaction))
    (extraTxn : List (UInt256 × Option CTransaction)) :
    Result (ReadStatus × PartiallyDownloadedBlock) :=
  let (placed, slots) := placePrefilled cmpctblock.shorttxids.length cmpctblock.prefilledtxn 0 (-1)
    (List.replicate cmpctblock.blockTxCount none)
  let partialBlock := { partialBlock with header := cmpctblock.header, txnAvailable := slots }
  if ¬ placed then .ok (.invalid, partialBlock)
  else
    match mapShortIDs code slots cmpctblock.shorttxids 0 0 ∅ with
    | none => .ok (.failed, partialBlock)
    | some shorttxids =>
        if shorttxids.keys.length ≠ cmpctblock.shorttxids.length then .ok (.failed, partialBlock)
        else do
          let found : PoolMatch :=
            ⟨slots, List.replicate slots.length false, partialBlock.mempoolCount⟩
          let found ← found.matchPool shorttxids (fun _ _ => .ok true)
            (cmpctblock.getShortID code) (vTxHashes.map fun (hash, tx) => (hash, some tx))
          let found ← found.matchPool shorttxids (extraConflicts code)
            (cmpctblock.getShortID code) extraTxn
          return (.ok, { partialBlock with
            txnAvailable := found.slots
            mempoolCount := found.mempoolCount })

/-- `InitData(cmpctblock, extra_txn)`, where `vTxHashes` are the transactions of the memory
pool with their witness hashes. -/
def initData (partialBlock : PartiallyDownloadedBlock) (cmpctblock : CBlockHeaderAndShortTxIDs)
    (vTxHashes : List (UInt256 × CTransaction)) (extraTxn : List (UInt256 × Option CTransaction)) :
    Result (ReadStatus × PartiallyDownloadedBlock) :=
  if cmpctblock.header.isNull ∨ (cmpctblock.shorttxids = [] ∧ cmpctblock.prefilledtxn = []) then
    .ok (.invalid, partialBlock)
  else if maxBlockWeight / minSerializableTransactionWeight < cmpctblock.blockTxCount then
    .ok (.invalid, partialBlock)
  else do
    assertThat (partialBlock.header.isNull ∧ partialBlock.txnAvailable = [])
      "header.IsNull() && txn_available.empty()"
    initSlots code partialBlock cmpctblock vTxHashes extraTxn

def isTxAvailable (partialBlock : PartiallyDownloadedBlock) (index : Nat) : Result Bool := do
  assertThat (¬ partialBlock.header.isNull) "!header.IsNull()"
  assertThat (index < partialBlock.txnAvailable.length) "index < txn_available.size()"
  return (partialBlock.txnAvailable.getD index none).isSome

/-- The loop of `FillBlock`: empty slots take the given transactions in order. None when these
run out, and otherwise the block's transactions and the given ones left over. -/
def fillSlots : TxSlots → List CTransaction → Option (List CTransaction × List CTransaction)
  | [], vtxMissing => some ([], vtxMissing)
  | some tx :: slots, vtxMissing =>
      (fillSlots slots vtxMissing).map fun (vtx, rest) => (tx :: vtx, rest)
  | none :: _, [] => none
  | none :: slots, tx :: vtxMissing =>
      (fillSlots slots vtxMissing).map fun (vtx, rest) => (tx :: vtx, rest)

/-- The slots that `FillBlock` leaves when the transactions run out: those before the slot it
stopped at have been moved from. -/
def movedSlots : TxSlots → List CTransaction → TxSlots
  | [], _ => []
  | some _ :: slots, vtxMissing => none :: movedSlots slots vtxMissing
  | none :: slots, [] => none :: slots
  | none :: slots, _ :: vtxMissing => none :: movedSlots slots vtxMissing

def assembled (header : CBlockHeader) (vtx : List CTransaction) : CBlock where
  toCBlockHeader := header
  vtx
  vchBlockSig := []
  fChecked := false

def checkedStatus (block : CBlock) : Result CBlock → Result (ReadStatus × CBlock)
  | .ok checked => .ok (.ok, checked)
  | .error (.assertion condition) => .error (.assertion condition)
  | .error (.exception what) => .error (.exception what)
  | .error failure =>
      .ok (if failure.getReason = .blockMutated then .failed else .checkBlockFailed, block)

/-- `FillBlock(block, vtx_missing)`: the status, the block and the object left behind. Once
every slot has its transaction the object is emptied, whatever the checks then say. -/
def fillBlock (partialBlock : PartiallyDownloadedBlock) (vtxMissing : List CTransaction) :
    Result (ReadStatus × CBlock × PartiallyDownloadedBlock) := do
  assertThat (¬ partialBlock.header.isNull) "!header.IsNull()"
  match fillSlots partialBlock.txnAvailable vtxMissing with
  | none =>
      return (.invalid, assembled partialBlock.header [],
        { partialBlock with txnAvailable := movedSlots partialBlock.txnAvailable vtxMissing })
  | some (vtx, rest) =>
      let block := assembled partialBlock.header vtx
      let emptied := { partialBlock with header := CBlockHeader.null, txnAvailable := [] }
      if rest ≠ [] then return (.invalid, block, emptied)
      let (status, block) ← checkedStatus block (checkBlock code.crypto ctx block true true)
      return (status, block, emptied)

end PartiallyDownloadedBlock

end Verium
