import Verium.Chain.State
import Verium.Consensus.CheckBlock

/-!
How headers and blocks enter the block index: `AcceptBlockHeader`, `AddToBlockIndex`,
`AcceptBlock` and `ReceivedBlockTransactions`. A call can leave changes behind and fail, so
each function gives its result together with the state after it. The address that `new` gives
a new entry is an argument. `CheckBlockIndex`, which a node runs only when asked to, the file
positions and the writing of dirty entries are left out.
-/

namespace Verium

open Lib

/-- The chain state and what lies beside it: the entries of `m_block_index` in the order of
the map, the best header, and the counters behind `nSequenceId`. -/
structure NodeState extends CChainState where
  blocks : List BlockPtr
  pindexBestHeader : Option BlockPtr
  nBlockSequenceId : Int
  nBlockReverseSequenceId : Int
  nLastPreciousChainwork : Nat

def NodeState.withChain (s : NodeState) (chain : CChainState) : NodeState :=
  { s with toCChainState := chain }

/-- What is fixed while a node runs: the hash functions, the chain parameters and the
options. -/
structure NodeParams where
  crypto : Crypto
  params : Params
  float : FloatCode
  mapCheckpoints : List (Nat × UInt256)
  sorted : mapCheckpoints.Pairwise fun a b => a.1 < b.1
  fCheckpointsEnabled : Bool
  nMinimumChainWork : Nat
  timeChecksActivationHeight : Nat

def isBlockReason (r : ValidationInvalidReason) : Bool :=
  r = .none || r = .consensus || r = .recentConsensusChange || r = .cachedInvalid ||
  r = .blockInvalidHeader || r = .blockMutated || r = .blockMissingPrev ||
  r = .blockInvalidPrev || r = .blockTimeFuture || r = .blockCheckpoint

section AcceptBlockHeader

variable (node : NodeParams)

/-- An entry and its ancestors, from the entry down. -/
def ancestry (entry : BlockPtr → CBlockIndex) : (fuel : Nat) → Option BlockPtr → List CBlockIndex
  | 0, _ => []
  | _, none => []
  | fuel + 1, some pindex => entry pindex :: ancestry entry fuel (entry pindex).pprev

/-- `GetLastCheckpoint`: the highest checkpoint whose block is in the index. -/
def getLastCheckpoint (blockIndex : UInt256 → Option BlockPtr) : Option BlockPtr :=
  node.mapCheckpoints.reverse.findSome? fun checkpoint => blockIndex checkpoint.2

def checkHeaderOn (s : NodeState) (block : CBlockHeader) (pindexPrev : BlockPtr)
    (nAdjustedTime : Int) : Result Unit :=
  let pcheckpoint :=
    if node.fCheckpointsEnabled then getLastCheckpoint node s.blockman.blockIndex else none
  contextualCheckBlockHeader node.params node.float
    { nAdjustedTime, lastCheckpointHeight := pcheckpoint.map fun p => (s.entry p).nHeight }
    block (ancestry s.entry ((s.entry pindexPrev).nHeight + 1) (some pindexPrev))

def findFailed (entry : BlockPtr → CBlockIndex) (pindexPrev : BlockPtr) :
    List BlockPtr → Result (Option BlockPtr)
  | [] => .ok none
  | failedit :: rest => do
      if (← getAncestor entry pindexPrev (entry failedit).nHeight) = some failedit then
        assertThat (entry failedit).nStatus.failedValid "failedit->nStatus & BLOCK_FAILED_VALID"
        return some failedit
      findFailed entry pindexPrev rest

/-- Mark `invalid_walk` and the entries below it, down to `failedit`, which is left out. -/
def CChainState.markFailedChildren (failedit : BlockPtr) :
    (fuel : Nat) → Option BlockPtr → CChainState → CChainState
  | 0, _, s => s
  | _, none, s => s
  | fuel + 1, some invalidWalk, s =>
      if invalidWalk = failedit then s
      else
        markFailedChildren failedit fuel (s.entry invalidWalk).pprev
          (s.updateStatus invalidWalk fun status => { status with failedChild := true })

/-- The checks of `AcceptBlockHeader` on a header that is not in the index: the parent, and
the failed block below it if there is one. `CheckBlockHeader`, which this chain skips, accepts
everything. -/
def checkNewHeader (s : NodeState) (block : CBlockHeader) (nAdjustedTime : Int) :
    Result (BlockPtr × Option BlockPtr) := do
  let some pindexPrev := s.blockman.blockIndex block.hashPrevBlock
    | .error (.invalid .blockMissingPrev 0 "prev-blk-not-found")
  rejectIf (s.entry pindexPrev).nStatus.failed
    (.invalid .blockInvalidPrev rejectInvalid "bad-prevblk")
  checkHeaderOn node s block pindexPrev nAdjustedTime
  if (s.entry pindexPrev).nStatus.isValid blockValidScripts then return (pindexPrev, none)
  let failedit ← findFailed s.entry pindexPrev
    (s.blockman.failedBlocks.insertionSort (· ≤ ·))
  return (pindexPrev, failedit)

/-- The entry that `AddToBlockIndex` makes, when the map and the memory already hold it as
`CBlockIndex(block)`. -/
def linkEntry (blockman : BlockManager) (block : CBlockHeader) (pindexNew : CBlockIndex) :
    Result CBlockIndex := do
  let nStatus := pindexNew.nStatus.raiseValidity blockValidTree
  match blockman.blockIndex block.hashPrevBlock with
  | none =>
      return { pindexNew with
        nTimeMax := pindexNew.nTime
        nChainWork := getBlockProof pindexNew.nBits
        nStatus }
  | some pprev =>
      let nHeight := (blockman.entry pprev).nHeight + 1
      let pskip ← getAncestor blockman.entry pprev (getSkipHeight nHeight)
      return { pindexNew with
        pprev := some pprev
        nHeight
        pskip
        nTimeMax := max (blockman.entry pprev).nTimeMax pindexNew.nTime
        nChainWork := ((blockman.entry pprev).nChainWork + getBlockProof pindexNew.nBits) % 2 ^ 256
        nStatus }

def NodeState.raiseBestHeader (s : NodeState) (pindexNew : BlockPtr) : NodeState :=
  match s.pindexBestHeader with
  | none => { s with pindexBestHeader := some pindexNew }
  | some best =>
      if (s.entry best).nChainWork < (s.entry pindexNew).nChainWork then
        { s with pindexBestHeader := some pindexNew }
      else s

def addToBlockIndex (block : CBlockHeader) (pNew : BlockPtr) (s : NodeState) :
    Result BlockPtr × NodeState :=
  let hash := block.getHash node.crypto
  match s.blockman.blockIndex hash with
  | some pindex => (.ok pindex, s)
  | none =>
      let pindexNew := CBlockIndex.ofHeader hash block
      let blockman := { s.blockman with
        entry := Function.update s.entry pNew pindexNew
        blockIndex := Function.update s.blockman.blockIndex hash (some pNew) }
      match linkEntry blockman block pindexNew with
      | .error e => (.error e, s)
      | .ok linked =>
          let blockman := { blockman with entry := Function.update s.entry pNew linked }
          (.ok pNew, NodeState.raiseBestHeader
            { s with blockman, blocks := pNew :: s.blocks } pNew)

/-- `BlockManager::AcceptBlockHeader`, with the clock and the address of a new entry. -/
def acceptBlockHeader (block : CBlockHeader) (nAdjustedTime : Int) (pNew : BlockPtr)
    (s : NodeState) : Result BlockPtr × NodeState :=
  let hash := block.getHash node.crypto
  if hash = node.params.hashGenesisBlock then addToBlockIndex node block pNew s
  else
    match s.blockman.blockIndex hash with
    | some pindex =>
        if (s.entry pindex).nStatus.failed then
          (.error (.invalid .cachedInvalid 0 "duplicate"), s)
        else (.ok pindex, s)
    | none =>
        match checkNewHeader node s block nAdjustedTime with
        | .error e => (.error e, s)
        | .ok (_, none) => addToBlockIndex node block pNew s
        | .ok (pindexPrev, some failedit) =>
            (.error (.invalid .blockInvalidPrev rejectInvalid "bad-prevblk"),
              s.withChain (s.markFailedChildren failedit ((s.entry pindexPrev).nHeight + 1)
                (some pindexPrev)))

end AcceptBlockHeader

/-- Insert into the candidates, which are kept in the order of the comparator. -/
def CChainState.insertCandidate (s : CChainState) (p : BlockPtr) : CChainState :=
  if p ∈ s.setBlockIndexCandidates then s
  else
    { s with setBlockIndexCandidates :=
      s.setBlockIndexCandidates.takeWhile (fun q => workLess s.entry q p) ++
        p :: s.setBlockIndexCandidates.dropWhile fun q => workLess s.entry q p }

def NodeState.updateEntry (s : NodeState) (p : BlockPtr) (f : CBlockIndex → CBlockIndex) :
    NodeState :=
  { s with blockman :=
    { s.blockman with entry := Function.update s.entry p (f (s.entry p)) } }

def NodeState.reachesTip (s : NodeState) (p : BlockPtr) : Bool :=
  match s.tip with
  | none => true
  | some tip => !workLess s.entry p tip

/-- The entry has all its data now: count its transactions, give it a sequence number, and
make it a candidate if it is good enough. -/
def NodeState.linkBlock (s : NodeState) (pindex : BlockPtr) : NodeState :=
  let nChainTx := ((s.entry pindex).pprev.map fun pprev => (s.entry pprev).nChainTx).getD 0 +
    (s.entry pindex).nTx
  let s := s.updateEntry pindex fun e => { e with nChainTx, nSequenceId := s.nBlockSequenceId }
  let s := { s with nBlockSequenceId := s.nBlockSequenceId + 1 }
  if s.reachesTip pindex then s.withChain (s.insertCandidate pindex) else s

def BlockManager.waitingFor (blockman : BlockManager) (pindex : BlockPtr) : List BlockPtr :=
  (blockman.blocksUnlinked.filter fun link => link.1 = some pindex).reverse.map Prod.snd

/-- The loop over the queue of blocks that have all their data. A block enters the queue when
it leaves `m_blocks_unlinked`, which bounds the number of rounds. -/
def linkQueue : (fuel : Nat) → (queue : List BlockPtr) → NodeState → NodeState
  | 0, _, s => s
  | _, [], s => s
  | fuel + 1, pindex :: queue, s =>
      let s := s.linkBlock pindex
      let waiting := s.blockman.waitingFor pindex
      linkQueue fuel (queue ++ waiting)
        { s with blockman :=
          { s.blockman with
            blocksUnlinked := s.blockman.blocksUnlinked.filter fun link =>
              link.1 ≠ some pindex } }

def receivedBlockTransactions (nTx : Nat) (pindexNew : BlockPtr) (s : NodeState) : NodeState :=
  let s := s.updateEntry pindexNew fun e =>
    { e with
      nTx
      nChainTx := 0
      nStatus := { e.nStatus with haveData := true }.raiseValidity blockValidTransactions }
  match (s.entry pindexNew).pprev with
  | none => linkQueue (s.blockman.blocksUnlinked.length + 1) [pindexNew] s
  | some pprev =>
      if (s.entry pprev).haveTxsDownloaded then
        linkQueue (s.blockman.blocksUnlinked.length + 1) [pindexNew] s
      else if (s.entry pprev).nStatus.isValid blockValidTree then
        { s with blockman :=
          { s.blockman with
            blocksUnlinked := (some pprev, pindexNew) :: s.blockman.blocksUnlinked } }
      else s

section AcceptBlock

variable (node : NodeParams)

/-- What `AcceptBlock` is called with besides the block: the clock, whether `scryptHash` gets
its memory, `fRequested`, and whether the block finds a place on disk. -/
structure AcceptInput where
  nAdjustedTime : Int
  scratchbuf : Bool
  fRequested : Bool
  saved : Bool

def minBlocksToKeep : Nat := 288

/-- A block that is there already, or that was not asked for and does not look useful. -/
def ignoresBlock (fRequested : Bool) (pindex : BlockPtr) (s : NodeState) : Bool :=
  let e := s.entry pindex
  let fHasMoreOrSameWork :=
    match s.tip with
    | none => true
    | some tip => decide ((s.entry tip).nChainWork ≤ e.nChainWork)
  let fTooFarAhead := decide (s.chain.height + minBlocksToKeep < (e.nHeight : Int))
  e.nStatus.haveData ||
    (!fRequested && (e.nTx ≠ 0 || !fHasMoreOrSameWork || fTooFarAhead ||
      e.nChainWork < node.nMinimumChainWork))

def NodeState.checkContext (s : NodeState) (scratchbuf : Bool) : CheckContext where
  scratchbuf
  tipHeight := s.tip.map fun tip => (s.entry tip).nHeight
  timeChecksActivationHeight := node.timeChecksActivationHeight

def checkWholeBlock (input : AcceptInput) (block : CBlock) (pindex : BlockPtr) (s : NodeState) :
    Result Unit := do
  let block ← checkBlock node.crypto (s.checkContext node input.scratchbuf) block true true
  let nHeight := ((s.entry pindex).pprev.map fun p => (s.entry p).nHeight + 1).getD 0
  contextualCheckBlock block nHeight

/-- `AcceptBlock` once the header is in the index. The result is `*fNewBlock`. -/
def acceptBlockData (input : AcceptInput) (block : CBlock) (pindex : BlockPtr) (s : NodeState) :
    Result Bool × NodeState :=
  if ignoresBlock node input.fRequested pindex s then (.ok false, s)
  else
    match checkWholeBlock node input block pindex s with
    | .error e =>
        if isBlockReason e.getReason then
          if e.IsInvalid ∧ e.getReason ≠ .blockMutated then
            (.error e, s.withChain
              (s.updateStatus pindex fun status => { status with failedValid := true }))
          else (.error e, s)
        else (.error (.assertion "IsBlockReason(state.GetReason())"), s)
    | .ok () =>
        if input.saved then
          (.ok true, receivedBlockTransactions block.vtx.length pindex s)
        else
          (.error (.error "AcceptBlock: Failed to find position to write new block to disk"), s)

def acceptBlock (input : AcceptInput) (block : CBlock) (pNew : BlockPtr) (s : NodeState) :
    Result Bool × NodeState :=
  match acceptBlockHeader node block.getBlockHeader input.nAdjustedTime pNew s with
  | (.error e, s) => (.error e, s)
  | (.ok pindex, s) => acceptBlockData node input block pindex s

inductive Arrival where
  | header (block : CBlockHeader) (nAdjustedTime : Int) (pNew : BlockPtr)
  | block (input : AcceptInput) (block : CBlock) (pNew : BlockPtr)

def arrive (s : NodeState) : Arrival → NodeState
  | .header block nAdjustedTime pNew => (acceptBlockHeader node block nAdjustedTime pNew s).2
  | .block input block pNew => (acceptBlock node input block pNew s).2

end AcceptBlock

/-- A node whose genesis block has hash 77. -/
def sampleNode : NodeParams where
  crypto := sampleCrypto
  params := { hashGenesisBlock := 77 }
  float := easyFloat
  mapCheckpoints := []
  sorted := .nil
  fCheckpointsEnabled := true
  nMinimumChainWork := 0
  timeChecksActivationHeight := 2147483647

def genesisState : NodeState where
  blockman :=
    { entry := fun _ => dataEntry 77 none 0 1
      blockIndex := fun hash => if hash = 77 then some 0 else none
      failedBlocks := []
      blocksUnlinked := [] }
  chain := [some 0]
  setBlockIndexCandidates := [0]
  pindexBestInvalid := none
  coinsBestBlock := 77
  blockChecked := []
  blocks := [0]
  pindexBestHeader := some 0
  nBlockSequenceId := 2
  nBlockReverseSequenceId := -1
  nLastPreciousChainwork := 0

end Verium
