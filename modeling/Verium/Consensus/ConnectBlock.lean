import Verium.Consensus.CheckBlock
import Verium.Policy.FeeRate

/-!
`ConnectBlock`: apply a block to a coins view, checking what depends on the UTXO set. The
loop over the transactions is a fold of `connectTx` over an explicit state.
-/

namespace Verium

open Lib

/-- What `ConnectBlock` reads besides its arguments. -/
structure ConnectEnv where
  crypto : Crypto
  params : Params
  float : FloatCode
  check : CheckContext
  nScriptCheckThreads : Nat
  /-- The salt of the script execution cache; its first 19 bytes are used. -/
  scriptExecutionCacheNonce : Bytes
  hashAssumeValid : UInt256
  /-- The assumed-valid block is in the index, it and the best header descend from the block
  being connected, and the best header has the minimum work. -/
  belowAssumeValid : Bool
  /-- `GetBlockProofEquivalentTime` from the block to the best header. -/
  nEquivalentTime : Int

def ConnectEnv.fScriptChecks (env : ConnectEnv) : Bool :=
  if env.hashAssumeValid ≠ 0 ∧ env.belowAssumeValid then
    env.nEquivalentTime ≤ 60 * 60 * 24 * 7 * 2
  else true

def getBlockScriptFlags : UInt32 :=
  scriptVerifyNone

def minTxFee : CAmount := 20000000
def vip1MinTxFee : CAmount := 100000

/-- `GetMinTxFee(nBlockHeight)`; zero stands for the height after the active tip. -/
def getMinTxFee (params : Params) (tipHeight : Option Nat) (nBlockHeight : Nat) : CAmount :=
  let nBlockHeight :=
    if nBlockHeight = 0 then
      match tipHeight with
      | none => 0
      | some nHeight => nHeight + 1
    else nBlockHeight
  if nBlockHeight < params.vip1Height then minTxFee else vip1MinTxFee

def requiredFee (params : Params) (tipHeight : Option Nat) (nHeight : Nat)
    (tx : CTransaction) : CAmount :=
  getFee (getMinTxFee params tipHeight nHeight) tx.getTotalSize true

section CheckInputs

def standardNotMandatoryVerifyFlags : UInt32 :=
  scriptVerifyDerSig ||| scriptVerifyStrictEnc ||| scriptVerifyMinimalData |||
  scriptVerifyNullDummy ||| scriptVerifyDiscourageUpgradableNops ||| scriptVerifyCleanStack |||
  scriptVerifyMinimalIf ||| scriptVerifyNullFail ||| scriptVerifyCheckLockTimeVerify |||
  scriptVerifyCheckSequenceVerify ||| scriptVerifyLowS ||| scriptVerifyWitness |||
  scriptVerifyDiscourageUpgradableWitnessProgram ||| scriptVerifyWitnessPubkeyType |||
  scriptVerifyConstScriptCode

def standardScriptVerifyFlags : UInt32 :=
  mandatoryScriptVerifyFlags ||| standardNotMandatoryVerifyFlags

variable (crypto : Crypto)

/-- `CScriptCheck::operator()`: `VerifyScript` for input `nIn` of `tx`, which spends `txout`.
The signature cache only answers what verification would answer, and is left out. -/
def scriptCheck (txout : CTxOut) (tx : CTransaction) (nIn : Nat) (txin : CTxIn)
    (flags : UInt32) : Except VerifyFailure Unit :=
  verifyScript crypto flags (transactionSignatureChecker crypto tx nIn)
    txin.scriptSig txout.scriptPubKey txin.scriptWitness

def runScriptCheck (txout : CTxOut) (tx : CTransaction) (nIn : Nat) (txin : CTxIn)
    (flags : UInt32) : Result Unit :=
  match scriptCheck crypto txout tx nIn txin flags with
  | .ok () => .ok ()
  | .error (.assertion condition) => .error (.assertion condition)
  | .error (.script serror) =>
      if hasFlag flags standardNotMandatoryVerifyFlags ∧
          scriptCheck crypto txout tx nIn txin (flags &&& ~~~standardNotMandatoryVerifyFlags) =
            .ok () then
        .error (.invalid .txNotStandard rejectNonstandard
          ("non-mandatory-script-verify-flag (" ++ scriptErrorString serror ++ ")"))
      else
        .error (consensusInvalid
          ("mandatory-script-verify-flag-failed (" ++ scriptErrorString serror ++ ")"))

/-- The body of the input loop of `CheckInputs`. With a vector of checks to fill, the
script is not run here. -/
def checkInput (tx : CTransaction) (flags : UInt32) (pvChecks : Bool) (_ : Unit)
    (input : CTxIn × Nat) (coin : Coin) : Result Unit :=
  if pvChecks then .ok () else runScriptCheck crypto coin.out tx input.2 input.1 flags

def scriptCacheEntry (nonce : Bytes) (tx : CTransaction) (flags : UInt32) : UInt256 :=
  crypto.sha256 (nonce.take 19 ++ serUInt256 (tx.getWitnessHash crypto) ++ serUInt32 flags)

/-- `CheckInputs(tx, state, inputs, flags, .., cacheFullScriptStore, txdata, pvChecks)`,
with the contents of the script execution cache before and after. -/
def checkInputs (nonce : Bytes) (tx : CTransaction) (view : CCoinsViewCache) (flags : UInt32)
    (cacheFullScriptStore pvChecks : Bool) (cache : List UInt256) :
    Result (CCoinsViewCache × List UInt256) := do
  if tx.isCoinBase then return (view, cache)
  let hashCacheEntry := scriptCacheEntry crypto nonce tx flags
  if hashCacheEntry ∈ cache then return (view, cache)
  let (_, view) ← tx.vin.zipIdx.foldlM
    (withUnspent (fun input => input.1.prevout) (checkInput crypto tx flags pvChecks)) ((), view)
  if cacheFullScriptStore ∧ ¬ pvChecks then return (view, hashCacheEntry :: cache)
  return (view, cache)

end CheckInputs

def spendInput : List Coin × CCoinsViewCache → CTxIn → Result (List Coin × CCoinsViewCache)
  | (vprevout, view), txin =>
      match view.spendCoin txin.prevout with
      | none => .error (.assertion "is_spent")
      | some (coin, view) => .ok (vprevout ++ [coin], view)

def spendInputs (tx : CTransaction) (view : CCoinsViewCache) :
    Result (List Coin × CCoinsViewCache) :=
  if tx.isCoinBase then .ok ([], view) else tx.vin.foldlM spendInput ([], view)

/-- `UpdateCoins(tx, inputs, txundo, nHeight)`: the undo data and the new view. -/
def updateCoins (crypto : Crypto) (tx : CTransaction) (view : CCoinsViewCache)
    (nHeight : Nat) : Result (List Coin × CCoinsViewCache) := do
  let (vprevout, view) ← spendInputs tx view
  let view ← view.addCoins crypto tx nHeight false
  return (vprevout, view)

structure ConnectState where
  view : CCoinsViewCache
  cache : List UInt256
  nFees : CAmount
  nValueIn : CAmount
  nValueOut : CAmount
  nSigOpsCost : Nat
  vtxundo : List (List Coin)
  i : Nat

def ConnectState.start (view : CCoinsViewCache) (cache : List UInt256) : ConnectState :=
  ⟨view, cache, 0, 0, 0, 0, [], 0⟩

section ConnectBlock

variable (env : ConnectEnv)

def tallyValues (s : ConnectState) (tx : CTransaction) : Result ConnectState :=
  if tx.isCoinBase then do
    let nTxValueOut ← tx.getValueOut
    return { s with nValueOut := s.nValueOut + nTxValueOut }
  else do
    let (nTxValueIn, view) := s.view.getValueIn tx
    let nTxValueOut ← tx.getValueOut
    return { s with
      view
      nValueIn := s.nValueIn + nTxValueIn
      nValueOut := s.nValueOut + nTxValueOut
      nFees := s.nFees + (nTxValueIn - nTxValueOut) }

def tallySigOps (s : ConnectState) (tx : CTransaction) : Result ConnectState := do
  let (cost, view) ← getTransactionSigOpCost tx s.view getBlockScriptFlags
  let nSigOpsCost := s.nSigOpsCost + cost
  rejectIf (maxBlockSigOpsCost < nSigOpsCost) (consensusInvalid "bad-blk-sigops")
  return { s with view, nSigOpsCost }

/-- `CheckInputs` may answer `TX_NOT_STANDARD`, which is not defined for a block. -/
def asBlockFailure : Failure → Failure
  | .invalid .txNotStandard chRejectCode strRejectReason =>
      .invalid .consensus chRejectCode strRejectReason
  | failure => failure

/-- The checks on a spending transaction that are skipped with script checks off. When there
are script-checking threads, `CheckInputs` fills a vector that is then dropped. -/
def checkSpend (nHeight : Nat) (fJustCheck : Bool) (s : ConnectState) (tx : CTransaction) :
    Result ConnectState := do
  let pvChecks := env.nScriptCheckThreads ≠ 0
  let (view, cache) ←
    (checkInputs env.crypto env.scriptExecutionCacheNonce tx s.view getBlockScriptFlags
      fJustCheck pvChecks s.cache).mapError asBlockFailure
  let (nTxValueIn, view) := view.getValueIn tx
  let nTxValueOut ← tx.getValueOut
  rejectIf (nTxValueIn - nTxValueOut <
      requiredFee env.params env.check.tipHeight nHeight tx) (consensusInvalid "bad-fee-amount")
  return { s with view, cache }

def checkTx (nHeight : Nat) (fJustCheck : Bool) (s : ConnectState) (tx : CTransaction) :
    Result ConnectState :=
  if ¬ tx.isCoinBase ∧ env.fScriptChecks then checkSpend env nHeight fJustCheck s tx
  else .ok s

/-- The loop body up to `UpdateCoins`: everything that only reads the view. -/
def admitTx (nHeight : Nat) (fJustCheck : Bool) (s : ConnectState) (tx : CTransaction) :
    Result ConnectState := do
  let s ← tallyValues s tx
  let s ← tallySigOps s tx
  checkTx env nHeight fJustCheck s tx

def connectTx (nHeight : Nat) (fJustCheck : Bool) (s : ConnectState) (tx : CTransaction) :
    Result ConnectState := do
  let s ← admitTx env nHeight fJustCheck s tx
  let (txundo, view) ← updateCoins env.crypto tx s.view nHeight
  return { s with
    view
    vtxundo := if s.i = 0 then s.vtxundo else s.vtxundo ++ [txundo]
    i := s.i + 1 }

def blockOutPoints (crypto : Crypto) (vtx : List CTransaction) : List COutPoint :=
  vtx.flatMap fun tx => (List.range tx.vout.length).map (tx.outPoint crypto)

def checkBIP30 (view : CCoinsViewCache) (outpoint : COutPoint) : Result CCoinsViewCache := do
  let (found, view) := view.haveCoin outpoint
  rejectIf found (consensusInvalid "bad-txns-BIP30")
  return view

/-- The part of `ConnectBlock` that works on the view, stopped after the transactions `txs`
of the block: the BIP30 lookups for the whole block, then the loop. -/
def connectTxs (block : CBlock) (nHeight : Nat) (fJustCheck : Bool) (view : CCoinsViewCache)
    (cache : List UInt256) (txs : List CTransaction) : Result ConnectState := do
  let view ← (blockOutPoints env.crypto block.vtx).foldlM checkBIP30 view
  txs.foldlM (connectTx env nHeight fJustCheck) (ConnectState.start view cache)

/-- What a successful `ConnectBlock` leaves: the view, the block and index entry with the
fields it sets, the undo data, and the script execution cache. -/
structure Connected where
  view : CCoinsViewCache
  block : CBlock
  pindex : CBlockIndex
  blockundo : List (List Coin)
  cache : List UInt256

/-- The repeated `CheckBlock`: a block that looks mutated at this point stops the node. -/
def checkBlockAgain (block : CBlock) (fJustCheck : Bool) : Result CBlock :=
  match checkBlock env.crypto env.check block (!fJustCheck) (!fJustCheck) with
  | .ok block => .ok block
  | .error failure =>
      if failure.getReason = .blockMutated then
        .error (.error
          "Corrupt block found indicating potential hardware failure; shutting down")
      else .error failure

def finishBlock (block : CBlock) (pindex pprev : CBlockIndex) (s : ConnectState)
    (fJustCheck : Bool) : Result Connected := do
  let pindex := { pindex with
    nMint := s.nValueOut - s.nValueIn + s.nFees
    nMoneySupply := pprev.nMoneySupply + s.nValueOut - s.nValueIn }
  let blockReward := getProofOfWorkReward env.float s.nFees pprev
  let coinbase :: _ := block.vtx | .error (.assertion "block.vtx[0]")
  let coinbaseValue ← coinbase.getValueOut
  rejectIf (blockReward < coinbaseValue) (consensusInvalid "bad-cb-amount")
  if fJustCheck then return ⟨s.view, block, pindex, s.vtxundo, s.cache⟩
  let nStatus := { pindex.nStatus with haveUndo := true }
  let pindex := { pindex with nStatus := nStatus.raiseValidity blockValidScripts }
  return ⟨s.view.setBestBlock pindex.hashBlock, block, pindex, s.vtxundo, s.cache⟩

/-- `ConnectBlock(block, state, pindex, view, chainparams, fJustCheck)`, where `pprev` is the
entry `pindex->pprev` points to. Writing the undo data to disk is taken to succeed. -/
def connectBlock (block : CBlock) (pindex : CBlockIndex) (pprev : Option CBlockIndex)
    (view : CCoinsViewCache) (cache : List UInt256) (fJustCheck : Bool) :
    Result Connected := do
  assertThat (pindex.hashBlock = block.getHash env.crypto)
    "*pindex->phashBlock == block.GetHash()"
  let block ← checkBlockAgain env block fJustCheck
  let hashPrevBlock := (pprev.map CBlockIndex.hashBlock).getD 0
  assertThat (hashPrevBlock = view.getBestBlock) "hashPrevBlock == view.GetBestBlock()"
  if block.getHash env.crypto = env.params.hashGenesisBlock then
    let view := if fJustCheck then view else view.setBestBlock pindex.hashBlock
    return ⟨view, block, pindex, [], cache⟩
  let some pprev := pprev | .error (.assertion "pindex->pprev")
  let s ← connectTxs env block pindex.nHeight fJustCheck view cache block.vtx
  finishBlock env block pindex pprev s fJustCheck

end ConnectBlock

end Verium
