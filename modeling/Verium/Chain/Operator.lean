import Verium.Chain.Accept

/-!
What the operator of a node can do to the chain state: declare a block invalid
(`InvalidateBlock`), take that back (`ResetBlockFailureFlags`), and start the node again
(`LoadBlockIndex` and `LoadChainTip`).
-/

namespace Verium

open Lib

/-- `candidate_blocks_by_work`: the entries off the active chain that could become the tip when
the chain is cut below `pindex`. The parent of `pindex` is read without a test for null. -/
def NodeState.candidateBlocksByWork (s : NodeState) (pindex : BlockPtr) : Result (List BlockPtr) :=
  let inactive := s.blocks.filter fun p => ¬ s.chain.contains s.entry p
  match (s.entry pindex).pprev with
  | none => if inactive = [] then .ok [] else .error (.exception "null pointer")
  | some pprev =>
      .ok <| inactive.filter fun p =>
        !workLess s.entry p pprev && (s.entry p).nStatus.isValid blockValidTransactions &&
          (s.entry p).haveTxsDownloaded

/-- Mark a block that has just been disconnected, and make its parent a candidate. -/
def CChainState.markDisconnected (s : CChainState) (invalidWalkTip pprev : BlockPtr) :
    CChainState :=
  let s := s.updateStatus invalidWalkTip fun status => { status with failedValid := true }
  (s.eraseCandidate invalidWalkTip).insertCandidate pprev

/-- The test that was to turn the mark of the block above into `BLOCK_FAILED_CHILD`. -/
def CChainState.unmarkChild (s : CChainState) (toMarkFailed pprev : BlockPtr) : CChainState :=
  if pprev = toMarkFailed ∧ (s.entry toMarkFailed).nStatus.failedValid then
    s.updateStatus toMarkFailed fun status =>
      { status with failedValid := false, failedChild := true }
  else s

/-- The loop that disconnects `pindex` and its descendants. It ends before the next round when
a shutdown is requested, which happens after the given number of rounds. -/
def CChainState.invalidateLoop (pindex : BlockPtr) :
    (rounds : Nat) → (toMarkFailed : BlockPtr) → (candidates : List BlockPtr) → CChainState →
      Result (BlockPtr × CChainState)
  | 0, toMarkFailed, _, s => .ok (toMarkFailed, s)
  | rounds + 1, toMarkFailed, candidates, s =>
      if ¬ s.chain.contains s.entry pindex then .ok (toMarkFailed, s)
      else do
        let some invalidWalkTip := s.tip | .error (.assertion "pindexDelete")
        let s ← s.disconnectTip
        assertThat ((s.entry invalidWalkTip).pprev = s.tip)
          "invalid_walk_tip->pprev == m_chain.Tip()"
        let some pprev := (s.entry invalidWalkTip).pprev | .error (.exception "null pointer")
        let s := (s.markDisconnected invalidWalkTip pprev).unmarkChild toMarkFailed pprev
        let better := candidates.filter fun p => !workLess s.entry p pprev
        let others := candidates.filter fun p => workLess s.entry p pprev
        invalidateLoop pindex rounds invalidWalkTip others
          (better.foldl CChainState.insertCandidate s)

def NodeState.addMissingCandidates (s : NodeState) : CChainState :=
  (s.blocks.filter fun p => (s.entry p).nStatus.isValid blockValidTransactions &&
    (s.entry p).haveTxsDownloaded && s.reachesTip p).foldl
      CChainState.insertCandidate s.toCChainState

def NodeState.markInvalid (s : NodeState) (toMarkFailed : BlockPtr) : NodeState :=
  let chain := s.updateStatus toMarkFailed fun status => { status with failedValid := true }
  let chain := chain.eraseCandidate toMarkFailed
  s.withChain { chain with blockman :=
    { chain.blockman with failedBlocks := toMarkFailed :: s.blockman.failedBlocks } }

def invalidateBlock (rounds : Nat) (pindex : BlockPtr) (s : NodeState) :
    Result (Bool × NodeState) := do
  let candidates ← s.candidateBlocksByWork pindex
  let (toMarkFailed, chain) ← s.invalidateLoop pindex rounds pindex candidates
  let s := s.withChain chain
  if s.chain.contains s.entry toMarkFailed then return (false, s)
  let chain ← CChainState.invalidChainFound toMarkFailed
    (s.markInvalid toMarkFailed).addMissingCandidates
  return (true, s.withChain chain)

/-- `nStatus &= ~BLOCK_FAILED_MASK`, and the entry leaves `m_failed_blocks`. -/
def CChainState.clearFailed (s : CChainState) (p : BlockPtr) : CChainState :=
  let s := s.updateStatus p fun status =>
    { status with failedValid := false, failedChild := false }
  { s with blockman :=
    { s.blockman with failedBlocks := s.blockman.failedBlocks.filter (· ≠ p) } }

/-- A cleared entry becomes a candidate if it has all its data and is better than the tip, and
is no longer the best invalid one. -/
def CChainState.reviveEntry (s : CChainState) (tip p : BlockPtr) : CChainState :=
  let s := s.clearFailed p
  let s :=
    if (s.entry p).nStatus.isValid blockValidTransactions ∧ (s.entry p).haveTxsDownloaded ∧
        workLess s.entry tip p then
      s.insertCandidate p
    else s
  if s.pindexBestInvalid = some p then { s with pindexBestInvalid := none } else s

def CChainState.resetEntry (pindex tip : BlockPtr) (s : CChainState) (p : BlockPtr) :
    Result CChainState := do
  if (s.entry p).nStatus.isValid blockValidTransactions then return s
  if (← getAncestor s.entry p (s.entry pindex).nHeight) = some pindex then
    return s.reviveEntry tip p
  return s

def CChainState.clearAncestors : (fuel : Nat) → Option BlockPtr → CChainState → CChainState
  | 0, _, s => s
  | _, none, s => s
  | fuel + 1, some pindex, s =>
      clearAncestors fuel (s.entry pindex).pprev
        (if (s.entry pindex).nStatus.failed then s.clearFailed pindex else s)

/-- `ResetBlockFailureFlags`, on a node that has a tip. -/
def resetBlockFailureFlags (pindex : BlockPtr) (s : NodeState) : Result NodeState := do
  let some tip := s.tip | .error (.exception "null pointer")
  let chain ← s.blocks.foldlM (CChainState.resetEntry pindex tip) s.toCChainState
  return s.withChain (chain.clearAncestors ((s.entry pindex).nHeight + 1) (some pindex))

/-- What the database holds of an entry after a flush. `FindMostWorkChain` sets
`BLOCK_FAILED_CHILD` without noting the entry as dirty, so this flag may not have been
written. -/
def CBlockIndex.fromDisk (e : CBlockIndex) (childWritten : Bool) : CBlockIndex :=
  { e with
    pskip := none
    nChainWork := 0
    nChainTx := 0
    nStatus := { e.nStatus with failedChild := e.nStatus.failedChild && childWritten }
    nSequenceId := 0
    nTimeMax := 0 }

/-- The state of a node that has read the entries from its database. -/
def NodeState.fromDisk (s : NodeState) (childWritten : BlockPtr → Bool) : NodeState where
  blockman :=
    { entry := fun p => (s.entry p).fromDisk (childWritten p)
      blockIndex := s.blockman.blockIndex
      failedBlocks := []
      blocksUnlinked := [] }
  chain := []
  setBlockIndexCandidates := []
  pindexBestInvalid := none
  coinsBestBlock := s.coinsBestBlock
  blockChecked := []
  blocks := s.blocks
  pindexBestHeader := none
  nBlockSequenceId := 1
  nBlockReverseSequenceId := -1
  nLastPreciousChainwork := 0

def NodeState.sortedByHeight (s : NodeState) : List BlockPtr :=
  s.blocks.insertionSort fun p q =>
    (s.entry p).nHeight < (s.entry q).nHeight ∨ (s.entry p).nHeight = (s.entry q).nHeight ∧ p ≤ q

/-- The entry with what `LoadBlockIndex` works out for it: its work, the number of transactions
up to it, the flag of a child of a failed block, and its skip pointer. -/
def NodeState.computeEntry (s : NodeState) (p : BlockPtr) : Result CBlockIndex := do
  let e := s.entry p
  match e.pprev with
  | none =>
      return { e with
        nChainWork := getBlockProof e.nBits
        nTimeMax := e.nTime
        nChainTx := e.nTx }
  | some pprev =>
      let parent := s.entry pprev
      let pskip ← getAncestor s.entry pprev (getSkipHeight e.nHeight)
      return { e with
        nChainWork := (parent.nChainWork + getBlockProof e.nBits) % 2 ^ 256
        nTimeMax := max parent.nTimeMax e.nTime
        nChainTx := if 0 < e.nTx ∧ parent.haveTxsDownloaded then parent.nChainTx + e.nTx else 0
        nStatus := { e.nStatus with
          failedChild := e.nStatus.failedChild || (!e.nStatus.failed && parent.nStatus.failed) }
        pskip }

def NodeState.loadEntry (s : NodeState) (p : BlockPtr) : Result NodeState := do
  let e ← s.computeEntry p
  let s := s.updateEntry p fun _ => e
  let waits := 0 < e.nTx && e.pprev.any fun pprev => !(s.entry pprev).haveTxsDownloaded
  let s := if waits then
      { s with blockman :=
        { s.blockman with blocksUnlinked := (e.pprev, p) :: s.blockman.blocksUnlinked } }
    else s
  let s := if e.nStatus.isValid blockValidTransactions && (e.haveTxsDownloaded || e.pprev = none)
    then s.withChain (s.insertCandidate p) else s
  let s := if e.nStatus.failed then s.withChain (s.raiseBestInvalid p) else s
  let better :=
    match s.pindexBestHeader with
    | none => true
    | some best => workLess s.entry best p
  return if e.nStatus.isValid blockValidTree && better then
    { s with pindexBestHeader := some p } else s

/-- The loop of `LoadBlockIndex`, over the entries by height. -/
def NodeState.loadBlockIndex (childWritten : BlockPtr → Bool) (s : NodeState) : Result NodeState :=
  s.sortedByHeight.foldlM NodeState.loadEntry (s.fromDisk childWritten)

/-- `LoadChainTip`: the tip is the best block of the coins view. -/
def NodeState.loadChainTip (s : NodeState) : Result NodeState := do
  let some pindex := s.blockman.blockIndex s.coinsBestBlock
    | .error (.error "LoadChainTip")
  let chain := { s.toCChainState with chain := s.chain.setTip s.entry (some pindex) }
  let chain ← chain.pruneBlockIndexCandidates
  return s.withChain chain

/-- A restart after a flush: the index is loaded from the database, then the tip. -/
def restart (childWritten : BlockPtr → Bool) (s : NodeState) : Result NodeState := do
  let s ← s.loadBlockIndex childWritten
  s.loadChainTip

end Verium
