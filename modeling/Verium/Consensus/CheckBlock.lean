import Verium.Consensus.TxVerify
import Verium.Pow

/-!
The checks on a block and its header that do not need the UTXO set: `CheckBlock`,
`ContextualCheckBlockHeader` and `ContextualCheckBlock`.
-/

namespace Verium

open Lib

/-- What `CheckBlock` reads besides the block: whether `scryptHash` gets its memory, the
height of the active tip, and the height from which transaction times are checked. -/
structure CheckContext where
  scratchbuf : Bool
  tipHeight : Option Nat
  timeChecksActivationHeight : Nat := 2147483647

def blockMutated (strRejectReason : String) : Failure :=
  .invalid .blockMutated rejectInvalid strRejectReason

section CheckBlock

variable (crypto : Crypto) (ctx : CheckContext)

def checkBlockWork (block : CBlock) : Result Unit :=
  rejectIf (¬ checkProofOfWork (block.getBlockHeader.getWorkHash crypto ctx.scratchbuf)
    block.nBits) (blockMutated "high-hash")

def checkBlockMerkleRoot (block : CBlock) : Result Unit := do
  let (hashMerkleRoot2, mutated) := blockMerkleRoot crypto block.vtx
  rejectIf (block.hashMerkleRoot ≠ hashMerkleRoot2) (blockMutated "bad-txnmrklroot")
  rejectIf mutated (blockMutated "bad-txns-duplicate")

def enforceTime : Bool :=
  ctx.timeChecksActivationHeight ≤
    match ctx.tipHeight with
    | none => 0
    | some nHeight => nHeight + 1

def checkBlockTransactions (block : CBlock) : Result Unit := do
  rejectIf (block.vtx = [] ∨ maxBlockWeight < block.vtx.length * witnessScaleFactor ∨
    maxBlockWeight < block.serialize.length * witnessScaleFactor)
    (consensusInvalid "bad-blk-length")
  let coinbase :: rest := block.vtx | .error (consensusInvalid "bad-cb-missing")
  rejectIf (¬ coinbase.isCoinBase) (consensusInvalid "bad-cb-missing")
  rejectIf (enforceTime ctx ∧
    (coinbase.nTime.toNat : Int) + maxFutureBlockTime < (block.nTime.toNat : Int))
    (consensusInvalid "bad-cb-timestamp")
  rejectIf (∃ tx ∈ rest, tx.isCoinBase) (consensusInvalid "bad-cb-multiple")
  block.vtx.forM fun tx => do
    rejectIf (enforceTime ctx ∧ block.nTime < tx.nTime) (consensusInvalid "bad-tx-timestamp")
    checkTransaction tx true
  rejectIf (maxBlockSigOpsCost <
    (block.vtx.map getLegacySigOpCount).sum * witnessScaleFactor)
    (consensusInvalid "bad-blk-sigops")

/-- `CheckBlock(block, state, params, fCheckPOW, fCheckMerkleRoot)`. A block that has passed
with both flags is marked checked, and a marked block passes at once. `CheckBlockHeader`,
which this chain skips, accepts everything. -/
def checkBlock (block : CBlock) (fCheckPOW fCheckMerkleRoot : Bool) : Result CBlock := do
  if block.fChecked then return block
  checkWhen fCheckPOW (checkBlockWork crypto ctx block)
  checkWhen fCheckMerkleRoot (checkBlockMerkleRoot crypto block)
  checkBlockTransactions ctx block
  return { block with fChecked := fCheckPOW && fCheckMerkleRoot }

end CheckBlock

/-- What `ContextualCheckBlockHeader` reads besides the headers: the clock, and the height
of the last checkpoint in the index when checkpoints are enabled. -/
structure HeaderContext where
  nAdjustedTime : Int
  lastCheckpointHeight : Option Nat

/-- `ContextualCheckBlockHeader(block, state, params, pindexPrev, nAdjustedTime)`, where
`chain` is `pindexPrev` and its ancestors. -/
def contextualCheckBlockHeader (params : Params) (float : FloatCode) (ctx : HeaderContext)
    (block : CBlockHeader) (chain : List CBlockIndex) : Result Unit := do
  let pindexPrev :: _ := chain | .error (.assertion "pindexPrev != nullptr")
  let nHeight := pindexPrev.nHeight + 1
  rejectIf (block.nBits ≠ getNextTargetRequired params float chain) (blockMutated "bad-diffbits")
  rejectIf (∃ checkpoint ∈ ctx.lastCheckpointHeight, nHeight < checkpoint)
    (.invalid .blockCheckpoint rejectCheckpoint "bad-fork-prior-to-checkpoint")
  rejectIf ((block.nTime.toNat : Int) ≤ getMedianTimePast chain)
    (.invalid .blockInvalidHeader rejectInvalid "time-too-old")
  rejectIf (ctx.nAdjustedTime + maxFutureBlockTime < (block.nTime.toNat : Int))
    (.invalid .blockTimeFuture rejectInvalid "time-too-new")

/-- `GetBlockWeight`: with a scale factor of one, the serialized size. -/
def getBlockWeight (block : CBlock) : Nat :=
  block.serialize.length * (witnessScaleFactor - 1) + block.serialize.length

def contextualCheckBlock (block : CBlock) (nHeight : Nat) : Result Unit := do
  rejectIf (∃ tx ∈ block.vtx, ¬ isFinalTx tx nHeight block.nTime.toNat)
    (consensusInvalid "bad-txns-nonfinal")
  rejectIf (∃ tx ∈ block.vtx, tx.hasWitness) (blockMutated "unexpected-witness")
  rejectIf (maxBlockWeight < getBlockWeight block) (consensusInvalid "bad-blk-weight")

end Verium
