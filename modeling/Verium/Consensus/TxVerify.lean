import Verium.Coins.Cache
import Verium.Consensus.Validation
import Verium.Script.Interpreter

/-!
Checks on a single transaction: `CheckTransaction`, which needs no context, and the ones
that look up the coins it spends, `GetTransactionSigOpCost` and `CheckTxInputs`.
-/

namespace Verium

open Lib

def maxBlockSerializedSize : Nat := 2000000
def maxBlockWeight : Nat := maxBlockSerializedSize / 2
def maxBlockSigOpsCost : Nat := maxBlockSerializedSize / 50
def coinbaseMaturity : Int := 100
def witnessScaleFactor : Nat := 1

/-- One round of the output loop of `CheckTransaction`. -/
def checkTxOut (nValueOut : CAmount) (txout : CTxOut) : Result CAmount := do
  rejectIf (txout.nValue < 0) (consensusInvalid "bad-txns-vout-negative")
  rejectIf (maxMoney < txout.nValue) (consensusInvalid "bad-txns-vout-toolarge")
  let nValueOut := nValueOut + txout.nValue
  rejectIf (¬ moneyRange nValueOut) (consensusInvalid "bad-txns-txouttotal-toolarge")
  return nValueOut

def checkTransaction (tx : CTransaction) (fCheckDuplicateInputs : Bool) : Result Unit := do
  rejectIf (tx.vin = []) (consensusInvalid "bad-txns-vin-empty")
  rejectIf (tx.vout = []) (consensusInvalid "bad-txns-vout-empty")
  rejectIf (maxBlockWeight < tx.getTotalSize * witnessScaleFactor)
    (consensusInvalid "bad-txns-oversize")
  let _ ← tx.vout.foldlM checkTxOut 0
  rejectIf (fCheckDuplicateInputs ∧ ¬ (tx.vin.map CTxIn.prevout).Nodup)
    (consensusInvalid "bad-txns-inputs-duplicate")
  if tx.isCoinBase then
    rejectIf (∃ txin ∈ tx.vin.head?, txin.scriptSig.length < 2 ∨ 100 < txin.scriptSig.length)
      (consensusInvalid "bad-cb-length")
  else
    rejectIf (∃ txin ∈ tx.vin, txin.prevout.isNull) (consensusInvalid "bad-txns-prevout-null")

def isFinalTx (tx : CTransaction) (nBlockHeight nBlockTime : Int) : Bool :=
  tx.nLockTime = 0 ||
  (tx.nLockTime.toNat : Int) <
    (if tx.nLockTime.toNat < locktimeThreshold then nBlockHeight else nBlockTime) ||
  tx.vin.all fun txin => txin.nSequence = CTxIn.sequenceFinal

def getLegacySigOpCount (tx : CTransaction) : Nat :=
  (tx.vin.map fun txin => getSigOpCount false txin.scriptSig).sum +
    (tx.vout.map fun txout => getSigOpCount false txout.scriptPubKey).sum

/-- `AccessCoin` followed by `assert(!coin.IsSpent())`. -/
def accessUnspent (view : CCoinsViewCache) (prevout : COutPoint) :
    Result (Coin × CCoinsViewCache) := do
  let (coin, view) := view.accessCoin prevout
  assertThat (¬ coin.isSpent) "!coin.IsSpent()"
  return (coin, view)

/-- The body of a loop over inputs that looks up the coin of each, asserts that it is
unspent and goes on with `body`. -/
def withUnspent {ρ α : Type} (prevout : α → COutPoint) (body : ρ → α → Coin → Result ρ) :
    ρ × CCoinsViewCache → α → Result (ρ × CCoinsViewCache)
  | (acc, view), input => do
      let (coin, view) ← accessUnspent view (prevout input)
      let acc ← body acc input coin
      return (acc, view)

/-- Count something over the inputs and the outputs they spend. -/
def sumOverInputs (count : CTxIn → CTxOut → Result Nat) :
    Nat × CCoinsViewCache → CTxIn → Result (Nat × CCoinsViewCache) :=
  withUnspent CTxIn.prevout fun nSigOps txin coin => do
    let n ← count txin coin.out
    return nSigOps + n

def getP2SHSigOpCount (tx : CTransaction) (view : CCoinsViewCache) :
    Result (Nat × CCoinsViewCache) :=
  if tx.isCoinBase then .ok (0, view)
  else
    tx.vin.foldlM
      (sumOverInputs fun txin prevout =>
        .ok (if isPayToScriptHash prevout.scriptPubKey then
          getSigOpCountSpending prevout.scriptPubKey txin.scriptSig else 0))
      (0, view)

def witnessSigOps (witversion : Nat) (witprogram : Bytes) (witness : CScriptWitness) : Nat :=
  if witversion = 0 then
    if witprogram.length = witnessV0KeyHashSize then 1
    else if witprogram.length = witnessV0ScriptHashSize then
      match witness.getLast? with
      | some subscript => getSigOpCount true subscript
      | none => 0
    else 0
  else 0

def countWitnessSigOps (scriptSig scriptPubKey : CScript) (witness : CScriptWitness)
    (flags : UInt32) : Result Nat := do
  if ¬ hasFlag flags scriptVerifyWitness then return 0
  assertThat (hasFlag flags scriptVerifyP2SH) "(flags & SCRIPT_VERIFY_P2SH) != 0"
  match isWitnessProgram scriptPubKey with
  | some (version, program) => return witnessSigOps version program witness
  | none =>
      if isPayToScriptHash scriptPubKey ∧ isPushOnly scriptSig then
        match isWitnessProgram (lastPushed (scriptOps scriptSig)) with
        | some (version, program) => return witnessSigOps version program witness
        | none => return 0
      else return 0

def getTransactionSigOpCost (tx : CTransaction) (view : CCoinsViewCache) (flags : UInt32) :
    Result (Nat × CCoinsViewCache) := do
  let nSigOps := getLegacySigOpCount tx * witnessScaleFactor
  if tx.isCoinBase then return (nSigOps, view)
  let (nP2SH, view) ←
    if hasFlag flags scriptVerifyP2SH then getP2SHSigOpCount tx view else pure (0, view)
  tx.vin.foldlM
    (sumOverInputs fun txin prevout =>
      countWitnessSigOps txin.scriptSig prevout.scriptPubKey txin.scriptWitness flags)
    (nSigOps + nP2SH * witnessScaleFactor, view)

/-- What `CheckTxInputs` demands of one coin, given the value of the inputs before it: that
a coinbase has matured, and that the value and the sum are amounts. -/
def checkTxInput (nSpendHeight : Int) (nValueIn : CAmount) (_ : CTxIn) (coin : Coin) :
    Result CAmount := do
  rejectIf (coin.fCoinBase ∧ nSpendHeight - coin.nHeight < coinbaseMaturity)
    (.invalid .txPrematureSpend rejectInvalid "bad-txns-premature-spend-of-coinbase")
  let nValueIn := nValueIn + coin.out.nValue
  rejectIf (¬ moneyRange coin.out.nValue ∨ ¬ moneyRange nValueIn)
    (consensusInvalid "bad-txns-inputvalues-outofrange")
  return nValueIn

/-- `Consensus::CheckTxInputs(tx, state, inputs, nSpendHeight, txfee)`: the fee, and the
view after the reads. -/
def checkTxInputs (tx : CTransaction) (view : CCoinsViewCache) (nSpendHeight : Int) :
    Result (CAmount × CCoinsViewCache) := do
  let (found, view) := view.haveInputs tx
  rejectIf (¬ found) (.invalid .txMissingInputs rejectInvalid "bad-txns-inputs-missingorspent")
  let (nValueIn, view) ← 
    tx.vin.foldlM (withUnspent CTxIn.prevout (checkTxInput nSpendHeight)) (0, view)
  let valueOut ← tx.getValueOut
  rejectIf (nValueIn < valueOut) (consensusInvalid "bad-txns-in-belowout")
  let txfee := nValueIn - valueOut
  rejectIf (¬ moneyRange txfee) (consensusInvalid "bad-txns-fee-outofrange")
  return (txfee, view)

end Verium
