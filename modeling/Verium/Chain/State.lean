import Verium.Chain.Active
import Verium.Lib.Iteration

/-!
The chain state and the functions that move the active chain: choosing the most-work
candidate, disconnecting to the fork, connecting towards the candidate in batches, and the
loop of `ActivateBestChain` around them. Reading blocks and writing state do not fail here,
and `ConnectBlock` is given by a verdict for each block. The mint and the money supply that it
writes to an entry, the mempool, the notifications and the fork warnings are left out: nothing
here reads them.
-/

namespace Verium

open Lib

structure BlockManager where
  entry : BlockPtr → CBlockIndex
  blockIndex : UInt256 → Option BlockPtr
  failedBlocks : List BlockPtr
  /-- `m_blocks_unlinked`: parents and the children that wait for their data. -/
  blocksUnlinked : List (Option BlockPtr × BlockPtr)

/-- The pointer is filed in the block index under the hash of its entry. -/
def BlockManager.Holds (blockman : BlockManager) (p : BlockPtr) : Prop :=
  blockman.blockIndex (blockman.entry p).hashBlock = some p

theorem BlockManager.holds_congr {blockman blockman' : BlockManager}
    (hindex : blockman'.blockIndex = blockman.blockIndex)
    (hhash : ∀ p, (blockman'.entry p).hashBlock = (blockman.entry p).hashBlock) :
    blockman'.Holds = blockman.Holds := by
  funext p
  unfold Holds
  rw [hindex, hhash]

/-- `class CChainState`, with the coins view it works on and the blocks reported by the
`BlockChecked` signal. -/
structure CChainState where
  blockman : BlockManager
  chain : CChain
  /-- The candidates in the order of the set, the best one last. -/
  setBlockIndexCandidates : List BlockPtr
  pindexBestInvalid : Option BlockPtr
  coinsBestBlock : UInt256
  blockChecked : List BlockPtr

inductive Verdict where
  | valid
  | invalid (reason : ValidationInvalidReason)
  | error
deriving DecidableEq, Repr

namespace CChainState

def entry (s : CChainState) : BlockPtr → CBlockIndex :=
  s.blockman.entry

def tip (s : CChainState) : Option BlockPtr :=
  s.chain.tip

def updateStatus (s : CChainState) (p : BlockPtr) (f : BlockStatus → BlockStatus) : CChainState :=
  { s with blockman :=
    { s.blockman with
      entry := Function.update s.entry p
        { s.entry p with nStatus := f (s.entry p).nStatus } } }

theorem updateStatus_entry (s : CChainState) (p q : BlockPtr) (f : BlockStatus → BlockStatus) :
    (s.updateStatus p f).entry q =
      if q = p then { s.entry q with nStatus := f (s.entry q).nStatus } else s.entry q := by
  change Function.update s.entry p _ q = _
  rw [Function.update_apply]
  split
  next heq => rw [heq]
  next => rfl

theorem updateStatus_nStatus (s : CChainState) (p q : BlockPtr) (f : BlockStatus → BlockStatus) :
    ((s.updateStatus p f).entry q).nStatus =
      if q = p then f (s.entry q).nStatus else (s.entry q).nStatus := by
  rw [updateStatus_entry]
  split
  · rfl
  · rfl

def eraseCandidate (s : CChainState) (p : BlockPtr) : CChainState :=
  { s with setBlockIndexCandidates := s.setBlockIndexCandidates.filter (· ≠ p) }

def raiseBestInvalid (s : CChainState) (pindexNew : BlockPtr) : CChainState :=
  match s.pindexBestInvalid with
  | none => { s with pindexBestInvalid := some pindexNew }
  | some best =>
      if (s.entry best).nChainWork < (s.entry pindexNew).nChainWork then
        { s with pindexBestInvalid := some pindexNew }
      else s

def invalidChainFound (pindexNew : BlockPtr) (s : CChainState) : Result CChainState := do
  let s := s.raiseBestInvalid pindexNew
  assertThat (s.tip ≠ none) "tip"
  return s

def invalidBlockFound (pindex : BlockPtr) (reason : ValidationInvalidReason)
    (s : CChainState) : Result CChainState :=
  if reason = .blockMutated then .ok s
  else
    let s := s.updateStatus pindex fun status => { status with failedValid := true }
    let s := { s with blockman :=
      { s.blockman with failedBlocks := pindex :: s.blockman.failedBlocks } }
    invalidChainFound pindex (s.eraseCandidate pindex)

def moveTip (s : CChainState) (p : BlockPtr) : CChainState :=
  { s with
    chain := s.chain.setTip s.entry (some p)
    coinsBestBlock := (s.entry p).hashBlock }

def report (s : CChainState) (p : BlockPtr) : CChainState :=
  { s with blockChecked := p :: s.blockChecked }

/-- What `ConnectBlock` writes to the status of a valid block: the undo data and the validity
level. It returns early for genesis. -/
def raiseScripts (s : CChainState) (p : BlockPtr) : CChainState :=
  if (s.entry p).pprev = none then s
  else s.updateStatus p fun status =>
    { status with haveUndo := true }.raiseValidity blockValidScripts

/-- `DisconnectTip`. The hash of the parent is read without a test for null. -/
def disconnectTip (s : CChainState) : Result CChainState := do
  let some pindexDelete := s.tip | .error (.assertion "pindexDelete")
  assertThat (s.coinsBestBlock = (s.entry pindexDelete).hashBlock)
    "view.GetBestBlock() == pindexDelete->GetBlockHash()"
  let some pprev := (s.entry pindexDelete).pprev | .error (.exception "null pointer")
  return s.moveTip pprev

section Verdicts

variable (verdict : BlockPtr → Verdict)

def connectTip (pindexNew : BlockPtr) (s : CChainState) : Result (Verdict × CChainState) := do
  assertThat ((s.entry pindexNew).pprev = s.tip) "pindexNew->pprev == m_chain.Tip()"
  let hashPrevBlock := ((s.entry pindexNew).pprev.map fun p => (s.entry p).hashBlock).getD 0
  assertThat (hashPrevBlock = s.coinsBestBlock) "hashPrevBlock == view.GetBestBlock()"
  match verdict pindexNew with
  | .valid => return (.valid, ((s.raiseScripts pindexNew).report pindexNew).moveTip pindexNew)
  | .invalid reason => do
      let s ← invalidBlockFound pindexNew reason (s.report pindexNew)
      return (.invalid reason, s)
  | .error => return (.error, s.report pindexNew)

def pruneBlockIndexCandidates (s : CChainState) : Result CChainState := do
  let some tip := s.tip | .error (.exception "null pointer")
  let candidates := s.setBlockIndexCandidates.dropWhile fun p => workLess s.entry p tip
  assertThat (candidates ≠ []) "!setBlockIndexCandidates.empty()"
  return { s with setBlockIndexCandidates := candidates }

inductive ConnectEnd where
  | exhausted
  | better
  | invalidFound
  | systemError
deriving DecidableEq, Repr

def isBetter (pindexOldTip : Option BlockPtr) (s : CChainState) : Bool :=
  match pindexOldTip, s.tip with
  | some old, some tip => (s.entry old).nChainWork < (s.entry tip).nChainWork
  | _, _ => true

/-- The loop over one batch of blocks; `front` is the highest of them. -/
def connectBatch (pindexOldTip : Option BlockPtr) (front : BlockPtr) :
    List BlockPtr → CChainState → Result (ConnectEnd × CChainState)
  | [], s => .ok (.exhausted, s)
  | pindexConnect :: rest, s => do
      match ← connectTip verdict pindexConnect s with
      | (.valid, s) =>
          let s ← s.pruneBlockIndexCandidates
          if isBetter pindexOldTip s then return (.better, s)
          connectBatch pindexOldTip front rest s
      | (.invalid reason, s) =>
          if reason = .blockMutated then return (.invalidFound, s)
          let s ← invalidChainFound front s
          return (.invalidFound, s)
      | (.error, s) => return (.systemError, s)

/-- `vpindexToConnect`: from `pindexIter` down to the height, which is left out. -/
def collectPath (entry : BlockPtr → CBlockIndex) (nHeight : Int) :
    (fuel : Nat) → (pindexIter : Option BlockPtr) → List BlockPtr
  | 0, _ => []
  | _, none => []
  | fuel + 1, some pindexIter =>
      if ((entry pindexIter).nHeight : Int) = nHeight then []
      else pindexIter :: collectPath entry nHeight fuel (entry pindexIter).pprev

/-- The loop over the batches. Each takes the height up by at least one. -/
def connectBatches (pindexOldTip : Option BlockPtr) (pindexMostWork : BlockPtr) :
    (fuel : Nat) → (nHeight : Int) → CChainState → Result (ConnectEnd × CChainState)
  | 0, _, s => .ok (.exhausted, s)
  | fuel + 1, nHeight, s =>
      if nHeight = (s.entry pindexMostWork).nHeight then .ok (.exhausted, s)
      else do
        let nTargetHeight := min (nHeight + 32) (s.entry pindexMostWork).nHeight
        let pindexIter ← getAncestor s.entry pindexMostWork nTargetHeight
        let vpindexToConnect := collectPath s.entry nHeight
          ((s.entry pindexMostWork).nHeight + 1) pindexIter
        let front := vpindexToConnect.headD pindexMostWork
        match ← connectBatch verdict pindexOldTip front vpindexToConnect.reverse s with
        | (.exhausted, s) => connectBatches pindexOldTip pindexMostWork fuel nTargetHeight s
        | ended => return ended

def disconnectTo (pindexFork : Option BlockPtr) :
    (fuel : Nat) → CChainState → Result CChainState
  | 0, s => .ok s
  | fuel + 1, s =>
      if s.tip = none ∨ s.tip = pindexFork then .ok s
      else do
        let s ← s.disconnectTip
        disconnectTo pindexFork fuel s

def activateBestChainStep (pindexMostWork : BlockPtr) (s : CChainState) :
    Result (ConnectEnd × CChainState) := do
  let pindexOldTip := s.tip
  let pindexFork ← s.chain.findFork s.entry pindexMostWork
  let s ← disconnectTo pindexFork (s.chain.length + 1) s
  let nHeight : Int := (pindexFork.map fun fork => ((s.entry fork).nHeight : Int)).getD (-1)
  connectBatches verdict pindexOldTip pindexMostWork
    ((s.entry pindexMostWork).nHeight + 2) nHeight s

end Verdicts

/-- From a candidate towards the active chain, the first entry that is failed or has no
data. -/
def findUnusable (s : CChainState) :
    (fuel : Nat) → (pindexTest : Option BlockPtr) → Result (Option BlockPtr)
  | 0, _ => .ok none
  | _, none => .ok none
  | fuel + 1, some pindexTest =>
      if s.chain.contains s.entry pindexTest then .ok none
      else do
        assertThat ((s.entry pindexTest).haveTxsDownloaded ∨ (s.entry pindexTest).nHeight = 0)
          "pindexTest->HaveTxsDownloaded() || pindexTest->nHeight == 0"
        if (s.entry pindexTest).nStatus.failed ∨ ¬ (s.entry pindexTest).nStatus.haveData then
          return some pindexTest
        findUnusable s fuel (s.entry pindexTest).pprev

/-- Remove the path from `pindexFailed` down to `pindexTest` from the candidates. What lies
above a failed entry is marked; what lies above one without data waits for it. -/
def removePath (fFailedChain : Bool) (pindexTest : BlockPtr) :
    (fuel : Nat) → (pindexFailed : Option BlockPtr) → CChainState → CChainState
  | 0, _, s => s
  | _, none, s => s
  | fuel + 1, some pindexFailed, s =>
      if pindexTest = pindexFailed then s.eraseCandidate pindexTest
      else
        let pprev := (s.entry pindexFailed).pprev
        let s :=
          if fFailedChain then
            s.updateStatus pindexFailed fun status => { status with failedChild := true }
          else
            { s with blockman :=
              { s.blockman with
                blocksUnlinked := (pprev, pindexFailed) :: s.blockman.blocksUnlinked } }
        removePath fFailedChain pindexTest fuel pprev (s.eraseCandidate pindexFailed)

/-- The loop of `FindMostWorkChain`. A round that does not return removes a candidate. -/
def findMostWorkLoop : (fuel : Nat) → CChainState → Result (Option BlockPtr × CChainState)
  | 0, s => .ok (none, s)
  | fuel + 1, s =>
      match s.setBlockIndexCandidates.getLast? with
      | none => .ok (none, s)
      | some pindexNew => do
          match ← s.findUnusable ((s.entry pindexNew).nHeight + 1) (some pindexNew) with
          | none => return (some pindexNew, s)
          | some pindexTest =>
              let fFailedChain := (s.entry pindexTest).nStatus.failed
              let s := if fFailedChain then s.raiseBestInvalid pindexNew else s
              findMostWorkLoop fuel
                (s.removePath fFailedChain pindexTest ((s.entry pindexNew).nHeight + 1)
                  (some pindexNew))

def findMostWorkChain (s : CChainState) : Result (Option BlockPtr × CChainState) :=
  findMostWorkLoop (s.setBlockIndexCandidates.length + 1) s

end CChainState

/-- The variables of `ActivateBestChain`. Its two nested loops are run as one, which remembers
the variables of the outer round: the tip it started from and whether it connected a block. -/
structure ActivateVars where
  s : CChainState
  pindexMostWork : Option BlockPtr
  pindexNewTip : Option BlockPtr
  startingTip : Option BlockPtr
  blocksConnected : Bool

section ActivateBestChain

/-- The end of an outer round: return, leave the outer loop, or start the next round. -/
def ActivateVars.endRound (v : ActivateVars) : ActivateVars ⊕ (Bool × CChainState) :=
  if ¬ v.blocksConnected ∨ v.pindexNewTip = v.pindexMostWork then .inr (true, v.s)
  else .inl { v with startingTip := v.s.tip, blocksConnected := false }

def ActivateVars.needsMore (v : ActivateVars) : Bool :=
  match v.s.tip, v.startingTip with
  | none, _ => true
  | some tip, some startingTip => workLess v.s.entry tip startingTip
  | some _, none => false

def ActivateVars.target (v : ActivateVars) : Result (Option BlockPtr × CChainState) :=
  match v.pindexMostWork with
  | none => v.s.findMostWorkChain
  | some pindexMostWork => .ok (some pindexMostWork, v.s)

/-- The variables after a step. A target that turned out invalid is dropped from the cache. -/
def ActivateVars.afterStep (v : ActivateVars) (pindexMostWork : BlockPtr)
    (ended : CChainState.ConnectEnd) (s : CChainState) : ActivateVars :=
  { v with
    s
    pindexMostWork := if ended = .invalidFound then none else some pindexMostWork
    pindexNewTip := s.tip
    blocksConnected := true }

def ActivateVars.continue (v : ActivateVars) : ActivateVars ⊕ (Bool × CChainState) :=
  if v.needsMore then .inl v else v.endRound

variable (verdict : BlockPtr → Verdict)

def activateRound (v : ActivateVars) : Result (ActivateVars ⊕ (Bool × CChainState)) := do
  match ← v.target with
  | (none, s) => return ActivateVars.endRound { v with s, pindexMostWork := none }
  | (some pindexMostWork, s) =>
      if s.tip = some pindexMostWork then
        return ActivateVars.endRound { v with s, pindexMostWork := some pindexMostWork }
      let (ended, s) ← s.activateBestChainStep verdict pindexMostWork
      if ended = .systemError then return .inr (false, s)
      return (v.afterStep pindexMostWork ended s).continue

/-- `ActivateBestChain`, for at most `fuel` rounds of its inner loop. -/
def activateBestChain (fuel : Nat) (s : CChainState) : Option (Result (Bool × CChainState)) :=
  runLoop (activateRound verdict) fuel ⟨s, none, none, s.tip, false⟩

end ActivateBestChain

end Verium
