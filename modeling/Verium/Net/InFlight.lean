import Verium.Chain.Index
import Verium.Net.PartialBlock

/-!
The bookkeeping of block downloads in `net_processing.cpp`, and the handlers of the `cmpctblock`
and `blocktxn` messages that drive it. An iterator into a peer's list of queued blocks is the
address of the list node. What a handler reads of the chain, the pools and the clock comes with
the message; what it sends, and the processing of a block once it is complete, is left out.
-/

namespace Verium

open Lib

abbrev NodeId := Int

abbrev QueuedPtr := Nat

structure QueuedBlock where
  hash : UInt256
  pindex : Option BlockPtr
  fValidatedHeaders : Bool
  partialBlock : Option PartiallyDownloadedBlock
deriving DecidableEq

structure CNodeState where
  vBlocksInFlight : List QueuedPtr
  nBlocksInFlight : Int
  nBlocksInFlightValidHeaders : Int
  nDownloadingSince : Int
  nStallingSince : Int
  fPreferredDownload : Bool
  mProtect : Bool
deriving DecidableEq

def CNodeState.new : CNodeState := ⟨[], 0, 0, 0, 0, false, false⟩

/-- The globals of `net_processing.cpp` that the bookkeeping works on, and the memory of the
list nodes with the next address to be handed out. -/
structure NetState where
  mapNodeState : AList fun _ : NodeId => CNodeState
  mapBlocksInFlight : AList fun _ : UInt256 => NodeId × QueuedPtr
  queued : QueuedPtr → QueuedBlock
  nextQueued : QueuedPtr
  nPreferredDownload : Int
  nPeersWithValidatedDownloads : Int
  outboundPeersWithProtectFromDisconnect : Int

def maxBlocksInTransitPerPeer : Int := 16

def maxOutboundPeersToProtectFromDisconnect : Int := 4

namespace NetState

def empty : NetState := ⟨∅, ∅, fun _ => ⟨0, none, false, none⟩, 0, 0, 0, 0⟩

def stateOf (nodeid : NodeId) (s : NetState) : Result CNodeState :=
  match s.mapNodeState.lookup nodeid with
  | none => .error (.assertion "state != nullptr")
  | some state => .ok state

/-- The body of `MarkBlockAsReceived` for a block that is in flight. -/
def dequeue (nNow : Int) (hash : UInt256) (nodeid : NodeId) (it : QueuedPtr)
    (state : CNodeState) (s : NetState) : NetState :=
  let fValidatedHeaders := (s.queued it).fValidatedHeaders
  let nValidHeaders := state.nBlocksInFlightValidHeaders - fValidatedHeaders.toInt
  let state :=
    { state with
      nBlocksInFlightValidHeaders := nValidHeaders
      nDownloadingSince :=
        if state.vBlocksInFlight.head? = some it then max state.nDownloadingSince nNow
        else state.nDownloadingSince
      vBlocksInFlight := state.vBlocksInFlight.erase it
      nBlocksInFlight := state.nBlocksInFlight - 1
      nStallingSince := 0 }
  { s with
    mapNodeState := s.mapNodeState.insert nodeid state
    mapBlocksInFlight := s.mapBlocksInFlight.erase hash
    nPeersWithValidatedDownloads :=
      s.nPeersWithValidatedDownloads -
        (decide (nValidHeaders = 0) && fValidatedHeaders).toInt }

def markBlockAsReceived (nNow : Int) (hash : UInt256) (s : NetState) : Result (Bool × NetState) :=
  match s.mapBlocksInFlight.lookup hash with
  | none => .ok (false, s)
  | some (nodeid, it) => do
      let state ← s.stateOf nodeid
      return (true, s.dequeue nNow hash nodeid it state)

/-- The end of `MarkBlockAsInFlight`: a new list node for a block that is not in flight. -/
def enqueue (nNow : Int) (nodeid : NodeId) (hash : UInt256) (pindex : Option BlockPtr)
    (pit : Bool) (state : CNodeState) (s : NetState) : NetState :=
  let it := s.nextQueued
  let nBlocksInFlight := state.nBlocksInFlight + 1
  let nValidHeaders := state.nBlocksInFlightValidHeaders + pindex.isSome.toInt
  let state :=
    { state with
      vBlocksInFlight := state.vBlocksInFlight ++ [it]
      nBlocksInFlight := nBlocksInFlight
      nBlocksInFlightValidHeaders := nValidHeaders
      nDownloadingSince := if nBlocksInFlight = 1 then nNow else state.nDownloadingSince }
  { s with
    mapNodeState := s.mapNodeState.insert nodeid state
    mapBlocksInFlight := s.mapBlocksInFlight.insert hash (nodeid, it)
    queued := Function.update s.queued it
      ⟨hash, pindex, pindex.isSome, if pit then some .new else none⟩
    nextQueued := it + 1
    nPeersWithValidatedDownloads :=
      s.nPeersWithValidatedDownloads +
        (decide (nValidHeaders = 1) && pindex.isSome).toInt }

def inFlightFrom (nodeid : NodeId) (hash : UInt256) (s : NetState) : Option QueuedPtr :=
  match s.mapBlocksInFlight.lookup hash with
  | none => none
  | some (nodeid', it) => if nodeid' = nodeid then some it else none

/-- `MarkBlockAsInFlight(nodeid, hash, pindex, pit)`: false when the block was in flight from
this peer already. The list node is what `pit` points to; without `pit` no partial block is
made. -/
def markBlockAsInFlight (nNow : Int) (nodeid : NodeId) (hash : UInt256)
    (pindex : Option BlockPtr) (pit : Bool) (s : NetState) :
    Result (Bool × QueuedPtr × NetState) := do
  let _ ← s.stateOf nodeid
  match s.inFlightFrom nodeid hash with
  | some it => return (false, it, s)
  | none =>
      let (_, s) ← s.markBlockAsReceived nNow hash
      let state ← s.stateOf nodeid
      return (true, s.nextQueued, s.enqueue nNow nodeid hash pindex pit state)

def initializeNode (nodeid : NodeId) (s : NetState) : NetState :=
  if nodeid ∈ s.mapNodeState then s
  else { s with mapNodeState := s.mapNodeState.insert nodeid .new }

def dropNode (nodeid : NodeId) (state : CNodeState) (s : NetState) : NetState :=
  { s with
    mapNodeState := s.mapNodeState.erase nodeid
    mapBlocksInFlight :=
      state.vBlocksInFlight.foldl (fun m it => m.erase (s.queued it).hash) s.mapBlocksInFlight
    nPreferredDownload := s.nPreferredDownload - state.fPreferredDownload.toInt
    nPeersWithValidatedDownloads :=
      s.nPeersWithValidatedDownloads - (decide (state.nBlocksInFlightValidHeaders ≠ 0)).toInt
    outboundPeersWithProtectFromDisconnect :=
      s.outboundPeersWithProtectFromDisconnect - state.mProtect.toInt }

def assertIdle (s : NetState) : Result Unit := do
  assertThat (s.mapBlocksInFlight.keys = []) "mapBlocksInFlight.empty()"
  assertThat (s.nPreferredDownload = 0) "nPreferredDownload == 0"
  assertThat (s.nPeersWithValidatedDownloads = 0) "nPeersWithValidatedDownloads == 0"
  assertThat (s.outboundPeersWithProtectFromDisconnect = 0)
    "g_outbound_peers_with_protect_from_disconnect == 0"

def finalizeNode (nodeid : NodeId) (s : NetState) : Result NetState := do
  let state ← s.stateOf nodeid
  let s := s.dropNode nodeid state
  assertThat (0 ≤ s.nPeersWithValidatedDownloads) "nPeersWithValidatedDownloads >= 0"
  assertThat (0 ≤ s.outboundPeersWithProtectFromDisconnect)
    "g_outbound_peers_with_protect_from_disconnect >= 0"
  checkWhen (s.mapNodeState.keys = []) s.assertIdle
  return s

/-- `UpdatePreferredDownload`, given what it finds out about the peer. -/
def updatePreferredDownload (nodeid : NodeId) (preferred : Bool) (s : NetState) :
    Result NetState := do
  let state ← s.stateOf nodeid
  return { s with
    mapNodeState := s.mapNodeState.insert nodeid { state with fPreferredDownload := preferred }
    nPreferredDownload :=
      s.nPreferredDownload - state.fPreferredDownload.toInt + preferred.toInt }

/-- The place in `ProcessHeadersMessage` that protects a peer whose chain is good enough. -/
def protectFromDisconnect (nodeid : NodeId) (s : NetState) : Result NetState := do
  let state ← s.stateOf nodeid
  if s.outboundPeersWithProtectFromDisconnect < maxOutboundPeersToProtectFromDisconnect ∧
      ¬ state.mProtect then
    return { s with
      mapNodeState := s.mapNodeState.insert nodeid { state with mProtect := true }
      outboundPeersWithProtectFromDisconnect := s.outboundPeersWithProtectFromDisconnect + 1 }
  else return s

section Handlers

/-- What the handlers of compact blocks read besides the message and the bookkeeping. -/
structure MessageContext where
  fImporting : Bool
  prevKnown : Bool
  /-- The entry that `ProcessNewBlockHeaders` returns, unless it finds the header invalid. -/
  pindex : Option (BlockPtr × CBlockIndex)
  tip : CBlockIndex
  canDirectFetch : Bool
  vTxHashes : List (UInt256 × CTransaction)
  /-- A ring buffer, which has null entries until it is full. -/
  vExtraTxnForCompact : List (UInt256 × Option CTransaction)
  check : CheckContext
  /-- `pindex->IsValid(BLOCK_VALID_TRANSACTIONS)` once a rebuilt block has been processed. -/
  validTransactions : Bool
  nNow : Int

variable (code : CompactCode) (ctx : MessageContext)

def setPartialBlock (it : QueuedPtr) (partialBlock : PartiallyDownloadedBlock) (s : NetState) :
    NetState :=
  { s with
    queued := Function.update s.queued it
      { s.queued it with partialBlock := some partialBlock } }

/-- The handler of `blocktxn`. A block that was filled leaves the queue, and so does one for
which the peer sent the wrong number of transactions; after `READ_STATUS_FAILED` the whole
block is requested and stays in flight. -/
def processBlockTxn (pfrom : NodeId) (resp : BlockTransactions) (s : NetState) : Result NetState :=
  if ctx.fImporting then .ok s
  else
    match s.inFlightFrom pfrom resp.blockhash with
    | none => .ok s
    | some it =>
        match (s.queued it).partialBlock with
        | none => .ok s
        | some partialBlock => do
            let (status, _, partialBlock) ← partialBlock.fillBlock code ctx.check resp.txn
            let s := s.setPartialBlock it partialBlock
            if status = .failed then return s
            let (_, s) ← s.markBlockAsReceived ctx.nNow resp.blockhash
            return s

def missingIndexes (partialBlock : PartiallyDownloadedBlock) (blockTxCount : Nat) :
    Result (List Nat) :=
  (List.range blockTxCount).foldlM (fun indexes i => do
    let available ← partialBlock.isTxAvailable i
    return if available then indexes else indexes ++ [i]) []

/-- The handler of `cmpctblock` for a block that this peer may send. When no transaction is
missing it goes on as for a `blocktxn` without transactions. -/
def downloadCmpctBlock (pfrom : NodeId) (pindex : BlockPtr)
    (cmpctblock : CBlockHeaderAndShortTxIDs) (s : NetState) : Result NetState := do
  let hash := cmpctblock.header.getHash code.crypto
  let (isNew, it, s) ← s.markBlockAsInFlight ctx.nNow pfrom hash (some pindex) true
  let held := (s.queued it).partialBlock
  -- The block was already in flight using compact blocks from the same peer.
  if ¬ isNew ∧ held.isSome then return s
  let (status, partialBlock) ← (held.getD .new).initData code cmpctblock ctx.vTxHashes
    ctx.vExtraTxnForCompact
  let s := s.setPartialBlock it partialBlock
  match status with
  | .invalid =>
      let (_, s) ← s.markBlockAsReceived ctx.nNow hash
      return s
  | .failed => return s
  | _ =>
      let indexes ← missingIndexes partialBlock cmpctblock.blockTxCount
      if indexes = [] then s.processBlockTxn code ctx pfrom ⟨hash, []⟩ else return s

/-- The handler of `cmpctblock` for a block that is in flight from another peer, or from a peer
with too many blocks in flight: it tries to do without a round trip. -/
def reconstructCmpctBlock (cmpctblock : CBlockHeaderAndShortTxIDs) (s : NetState) :
    Result NetState := do
  let (status, tempBlock) ← PartiallyDownloadedBlock.new.initData code cmpctblock ctx.vTxHashes
    ctx.vExtraTxnForCompact
  if status ≠ .ok then return s
  let (status, block, _) ← tempBlock.fillBlock code ctx.check []
  if status = .ok ∧ ctx.validTransactions then
    let (_, s) ← s.markBlockAsReceived ctx.nNow (block.getHash code.crypto)
    return s
  else return s

/-- The handler of `cmpctblock`. The index files an entry under the hash of its header. The
test for witness support is left out, since `IsWitnessEnabled` is false here, and the requests
that follow when the message is treated as a header are events of their own. -/
def processCmpctBlock (pfrom : NodeId) (cmpctblock : CBlockHeaderAndShortTxIDs) (s : NetState) :
    Result NetState :=
  if ctx.fImporting ∨ ¬ ctx.prevKnown then .ok s
  else
    match ctx.pindex with
    | none => .ok s
    | some (pindex, entry) => do
        let nodestate ← s.stateOf pfrom
        let inFlight := s.mapBlocksInFlight.lookup (cmpctblock.header.getHash code.crypto)
        if entry.nStatus.haveData then return s
        else if entry.nChainWork ≤ ctx.tip.nChainWork ∨ entry.nTx ≠ 0 then return s
        else if inFlight = none ∧ ¬ ctx.canDirectFetch then return s
        else if ctx.tip.nHeight + 2 < entry.nHeight then return s
        else if (inFlight = none ∧ nodestate.nBlocksInFlight < maxBlocksInTransitPerPeer) ∨
            inFlight.map Prod.fst = some pfrom then
          s.downloadCmpctBlock code ctx pfrom pindex cmpctblock
        else s.reconstructCmpctBlock code ctx cmpctblock

end Handlers

end NetState

/-- What can happen to the bookkeeping: peers come and go, blocks are requested by hash and
arrive whole, and peers send compact blocks and the transactions that were missing. -/
inductive NetEvent where
  | connect (nodeid : NodeId)
  | disconnect (nodeid : NodeId)
  | prefer (nodeid : NodeId) (preferred : Bool)
  | protect (nodeid : NodeId)
  | request (nNow : Int) (nodeid : NodeId) (hash : UInt256) (pindex : Option BlockPtr)
  | received (nNow : Int) (hash : UInt256)
  | cmpctBlock (ctx : NetState.MessageContext) (pfrom : NodeId)
      (cmpctblock : CBlockHeaderAndShortTxIDs)
  | blockTxn (ctx : NetState.MessageContext) (pfrom : NodeId) (resp : BlockTransactions)

namespace NetState

def handle (code : CompactCode) (s : NetState) : NetEvent → Result NetState
  | .connect nodeid => .ok (s.initializeNode nodeid)
  | .disconnect nodeid => s.finalizeNode nodeid
  | .prefer nodeid preferred => s.updatePreferredDownload nodeid preferred
  | .protect nodeid => s.protectFromDisconnect nodeid
  | .request nNow nodeid hash pindex => do
      let (_, _, s) ← s.markBlockAsInFlight nNow nodeid hash pindex false
      return s
  | .received nNow hash => do
      let (_, s) ← s.markBlockAsReceived nNow hash
      return s
  | .cmpctBlock ctx pfrom cmpctblock => s.processCmpctBlock code ctx pfrom cmpctblock
  | .blockTxn ctx pfrom resp => s.processBlockTxn code ctx pfrom resp

end NetState

end Verium
