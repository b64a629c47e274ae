import Verium.Consensus.SpendRules
import Verium.Script.PayToScriptHash
import Verium.Script.Restriction

/-!
The script checks of block connection. `GetBlockScriptFlags` asks for no flags, so a
pay-to-script-hash output is checked like any other: its redeem script is hashed but not run.
And with worker threads for script checks, the vector of checks that `CheckInputs` fills is
never handed to them, so no script is run at all.
-/

namespace Verium

open Lib

theorem runScriptCheck_ok {crypto : Crypto} {txout : CTxOut} {tx : CTransaction} {nIn : Nat}
    {txin : CTxIn}
    {flags : UInt32} (h : runScriptCheck crypto txout tx nIn txin flags = .ok ()) :
    scriptCheck crypto txout tx nIn txin flags = .ok () := by
  unfold runScriptCheck at h
  split at h
  · assumption
  · cases h
  · split at h
    · cases h
    · cases h

/-- The scripts of the transaction are run in the loop itself: there are no worker threads,
and the transaction is not in the script execution cache. -/
def ScriptsRun (env : ConnectEnv) (s : ConnectState) (tx : CTransaction) : Prop :=
  env.nScriptCheckThreads = 0 ∧
    scriptCacheEntry env.crypto env.scriptExecutionCacheNonce tx getBlockScriptFlags ∉ s.cache

/-- Every input of the transaction passes `VerifyScript` under the mandatory flags. -/
def MandatoryScriptsPass (crypto : Crypto) (tx : CTransaction) (s : ConnectState) : Prop :=
  ∀ input ∈ tx.vin.zipIdx, ∃ coin, s.view.utxo input.1.prevout = some coin ∧
    scriptCheck crypto coin.out tx input.2 input.1 mandatoryScriptVerifyFlags = .ok ()

/-- What block connection takes on trust about the inputs of a transaction: the scripts it
does not run, and the redeem scripts, which it never runs. -/
def TrustedScriptsHold (env : ConnectEnv) (tx : CTransaction) (s : ConnectState) : Prop :=
  ∀ input ∈ tx.vin.zipIdx, ∀ coin, s.view.utxo input.1.prevout = some coin →
    (¬ ScriptsRun env s tx →
      scriptCheck env.crypto coin.out tx input.2 input.1 scriptVerifyNone = .ok ()) ∧
    (isPayToScriptHash coin.out.scriptPubKey = true →
      PushedScriptSucceeds env.crypto (transactionSignatureChecker env.crypto tx input.2)
        input.1.scriptSig)

/-- A pay-to-script-hash coin that a transaction of the block takes out of the ledger leaves
through an input that pushes its redeem script and satisfies it. -/
def ScriptHashCoinsRedeemed (crypto : Crypto) (nHeight : Nat) (utxo : UtxoSet)
    (vtx : List CTransaction) : Prop :=
  ∀ pre tx post outpoint coin, vtx = pre ++ tx :: post →
    applyTxs crypto nHeight utxo pre outpoint = some coin →
    isPayToScriptHash coin.out.scriptPubKey = true →
    applyTxs crypto nHeight utxo (pre ++ [tx]) outpoint = none →
    ∃ input ∈ tx.vin.zipIdx, input.1.prevout = outpoint ∧
      RedeemsScriptHash crypto (transactionSignatureChecker crypto tx input.2)
        input.1.scriptSig coin.out.scriptPubKey

theorem applyTx_removes {crypto : Crypto} {nHeight : Nat} {utxo : UtxoSet} {tx : CTransaction}
    {outpoint : COutPoint} {coin : Coin} (hcoin : utxo outpoint = some coin)
    (hgone : applyTx crypto nHeight utxo tx outpoint = none) :
    tx.isCoinBase = false ∧ ∃ input ∈ tx.vin.zipIdx, input.1.prevout = outpoint := by
  have hspent := insertAll_eq_none hgone
  rw [spendTx, eraseAll_apply] at hspent
  split at hspent
  next hmem =>
    cases hcb : tx.isCoinBase with
    | true => simp [spentOutPoints, hcb] at hmem
    | false =>
      simp only [spentOutPoints, hcb, Bool.false_eq_true, if_false, List.mem_map] at hmem
      obtain ⟨txin, hmem, hprevout⟩ := hmem
      obtain ⟨i, hi, rfl⟩ := List.mem_iff_getElem.mp hmem
      exact ⟨rfl, (tx.vin[i], i), List.mk_mem_zipIdx_iff_getElem?.mpr (by simp), hprevout⟩
  next =>
    rw [hcoin] at hspent
    cases hspent

section Connected

variable {env : ConnectEnv} {block : CBlock} {nHeight : Nat} {fJustCheck : Bool}
  {view : CCoinsViewCache} {cache : List UInt256}

theorem TxAdmitted.scriptCheck_none {s t : ConnectState} {tx : CTransaction}
    (h : TxAdmitted env nHeight s tx t) (hchecks : env.fScriptChecks = true)
    (hspend : tx.isCoinBase = false) (hrun : ScriptsRun env s tx) {input : CTxIn × Nat}
    (hinput : input ∈ tx.vin.zipIdx) {coin : Coin}
    (hcoin : s.view.utxo input.1.prevout = some coin) :
    scriptCheck env.crypto coin.out tx input.2 input.1 scriptVerifyNone = .ok () := by
  rcases h.scripts hspend hchecks with hcached | hpass
  · exact absurd hcached hrun.2
  · obtain ⟨coin', hcoin', hcheck⟩ := hpass input hinput
    cases hcoin.symm.trans hcoin'
    rw [checkInput, if_neg (by simp [hrun.1])] at hcheck
    exact runScriptCheck_ok hcheck

theorem TxAdmitted.mandatoryScriptsPass_iff {s t : ConnectState} {tx : CTransaction}
    (h : TxAdmitted env nHeight s tx t) (hchecks : env.fScriptChecks = true)
    (hspend : tx.isCoinBase = false) :
    MandatoryScriptsPass env.crypto tx s ↔ TrustedScriptsHold env tx s := by
  constructor
  · intro hall input hinput coin hcoin
    obtain ⟨coin', hcoin', hcheck⟩ := hall input hinput
    cases hcoin.symm.trans hcoin'
    obtain ⟨hnone, hpushed⟩ := verifyScript_mandatory_iff.mp hcheck
    exact ⟨fun _ => hnone, hpushed⟩
  · intro hall input hinput
    have hmem : input.1 ∈ tx.vin := List.fst_mem_of_mem_zipIdx hinput
    obtain ⟨coin, hcoin⟩ := Option.isSome_iff_exists.mp (h.available hspend input.1 hmem)
    obtain ⟨htrusted, hpushed⟩ := hall input hinput coin hcoin
    refine ⟨coin, hcoin, verifyScript_mandatory_iff.mpr ⟨?_, hpushed⟩⟩
    by_cases hrun : ScriptsRun env s tx
    · exact h.scriptCheck_none hchecks hspend hrun hinput hcoin
    · exact htrusted hrun

/-- A connected block obeys the mandatory script rules, and its pay-to-script-hash coins have
been redeemed, exactly when what `ConnectBlock` took on trust about its scripts is true. -/
theorem connectBlock_mandatoryScripts_iff {pindex : CBlockIndex} {pprev : Option CBlockIndex}
    {res : Connected} (hchecks : env.fScriptChecks = true) (hflag : FCheckedSound block)
    (hsound : view.FlagsSound) (hgenesis : block.getHash env.crypto ≠ env.params.hashGenesisBlock)
    (h : connectBlock env block pindex pprev view cache fJustCheck = .ok res) :
    (ForEachSpend env block pindex.nHeight fJustCheck view cache
          (MandatoryScriptsPass env.crypto) ∧
        ScriptHashCoinsRedeemed env.crypto pindex.nHeight view.utxo block.vtx) ↔
      ForEachSpend env block pindex.nHeight fJustCheck view cache (TrustedScriptsHold env) := by
  obtain ⟨hchecked, prev, final, fChecked, -, -, -, hloop, -⟩ :=
    connectBlock_ok hflag hgenesis h
  have hscripts : ForEachSpend env block pindex.nHeight fJustCheck view cache
        (MandatoryScriptsPass env.crypto) ↔
      ForEachSpend env block pindex.nHeight fJustCheck view cache (TrustedScriptsHold env) := by
    refine forall₄_congr fun pre tx post s => forall₃_congr fun hsplit hspend hpre => ?_
    obtain ⟨⟨t, hadmitted⟩, -, -⟩ := connectTxs_admitted hchecked hsound hloop hsplit hpre
    exact hadmitted.mandatoryScriptsPass_iff hchecks hspend
  refine ⟨fun hall => hscripts.mp hall.1, fun hall => ⟨hscripts.mpr hall, ?_⟩⟩
  intro pre tx post outpoint coin hsplit hcoin hp2sh hgone
  rw [applyTxs, List.foldl_append] at hgone
  obtain ⟨hspend, input, hinput, rfl⟩ := applyTx_removes hcoin hgone
  obtain ⟨s, t, hpre, -⟩ := connectTxs_split hsplit hloop
  obtain ⟨-, -, hutxo⟩ := connectTxs_admitted hchecked hsound hloop hsplit hpre
  -- the input that takes the coin passes under the mandatory flags, so it redeems the script
  obtain ⟨coin', hcoin', hcheck⟩ :=
    hscripts.mpr hall pre tx post s hsplit hspend hpre input hinput
  rw [hutxo, hcoin] at hcoin'
  cases hcoin'
  obtain ⟨hnone, hpushed⟩ := verifyScript_mandatory_iff.mp hcheck
  exact ⟨input, hinput, rfl, redeemsScriptHash_of_verifyScript hnone hp2sh (hpushed hp2sh)⟩

end Connected

/-- A redeem script nobody can satisfy: it pushes false. -/
def falseScript : CScript := [Opcode.op0]

def heldCoin : Coin :=
  ⟨⟨1000000000, payToScriptHash (HashOp.eval sampleCrypto .hash160 falseScript)⟩, false, 9⟩

def heldCoins : UtxoSet := fun o =>
  if o = ⟨5, 0⟩ then some heldCoin else none

def heldInput : CTxIn :=
  ⟨⟨5, 0⟩, pushBytes falseScript, 0xffffffff, []⟩

def heldSpend : CTransaction :=
  ⟨1, 100, [heldInput], [⟨900000000, [Opcode.op1]⟩], 0⟩

def heldBlock : CBlock := sampleBlock [sampleCoinbase, heldSpend]

/-- A pay-to-script-hash coin is spent by whoever knows the redeem script. -/
theorem connectBlock_skips_redeemScript :
    sampleEnv.fScriptChecks = true ∧
      (∃ res, connectBlock sampleEnv heldBlock (sampleIndex heldBlock 10) (some samplePrev)
        (sampleView heldCoins) [] false = .ok res ∧ res.view.utxo heldInput.prevout = none) ∧
      (sampleView heldCoins).utxo heldInput.prevout = some heldCoin ∧
      isPayToScriptHash heldCoin.out.scriptPubKey = true ∧
      scriptCheck sampleCrypto heldCoin.out heldSpend 0 heldInput mandatoryScriptVerifyFlags =
        .error (.script .evalFalse) := by
  refine ⟨by decide, ?_, by decide +kernel, by decide +kernel, by decide +kernel⟩
  have hgone : (match connectBlock sampleEnv heldBlock (sampleIndex heldBlock 10)
        (some samplePrev) (sampleView heldCoins) [] false with
      | .ok res => decide (res.view.utxo heldInput.prevout = none)
      | .error _ => false) = true := by
    decide +kernel
  cases hres : connectBlock sampleEnv heldBlock (sampleIndex heldBlock 10) (some samplePrev)
      (sampleView heldCoins) [] false with
  | error failure =>
    rw [hres] at hgone
    cases hgone
  | ok res =>
    rw [hres] at hgone
    exact ⟨res, rfl, of_decide_eq_true hgone⟩

theorem heldBlock_mandatoryScripts_iff :
    (ForEachSpend sampleEnv heldBlock (sampleIndex heldBlock 10).nHeight false
          (sampleView heldCoins) [] (MandatoryScriptsPass sampleEnv.crypto) ∧
        ScriptHashCoinsRedeemed sampleEnv.crypto (sampleIndex heldBlock 10).nHeight
          (sampleView heldCoins).utxo heldBlock.vtx) ↔
      ForEachSpend sampleEnv heldBlock (sampleIndex heldBlock 10).nHeight false
        (sampleView heldCoins) [] (TrustedScriptsHold sampleEnv) := by
  have hconnects : ∃ res, connectBlock sampleEnv heldBlock (sampleIndex heldBlock 10)
      (some samplePrev) (sampleView heldCoins) [] false = .ok res :=
    failure?_eq_none.mp (by decide +kernel)
  have hgenesis : heldBlock.getHash sampleEnv.crypto ≠ sampleEnv.params.hashGenesisBlock := by
    decide +kernel
  obtain ⟨res, hres⟩ := hconnects
  exact connectBlock_mandatoryScripts_iff (by decide) (sampleBlock_fCheckedSound _)
    (sampleView_flagsSound _) hgenesis hres

/-- Flags only restrict: what `VerifyScript` accepts it accepts under fewer flags. So an input that
passes the checks of the pool passes those of a block that asks for fewer flags. -/
theorem scriptFlags_restrict (crypto : Crypto) :
    (∀ (flags flags' : UInt32) (checker : SignatureChecker) (scriptSig scriptPubKey : CScript)
      (witness : CScriptWitness), flags &&& flags' = flags → FlagsAllowed flags →
      FlagsAllowed flags' →
      verifyScript crypto flags' checker scriptSig scriptPubKey witness = .ok () →
      verifyScript crypto flags checker scriptSig scriptPubKey witness = .ok ()) ∧
    ∀ (flags : UInt32) (txout : CTxOut) (tx : CTransaction) (nIn : Nat) (txin : CTxIn),
      flags &&& standardScriptVerifyFlags = flags → FlagsAllowed flags →
      scriptCheck crypto txout tx nIn txin standardScriptVerifyFlags = .ok () →
      scriptCheck crypto txout tx nIn txin flags = .ok () := by
  constructor
  · intro flags flags' checker scriptSig scriptPubKey witness hsub hallowed _ h
    exact verifyScript_of_subset hsub crypto checker (fun hclean => (hallowed.1 hclean).2)
      hallowed.2 h
  · intro flags txout tx nIn txin hsub hallowed h
    exact verifyScript_of_subset hsub crypto _ (fun hclean => (hallowed.1 hclean).2) hallowed.2 h

/-- A script hash of a redeem script that anyone can satisfy, with the flags of the pool and with
those of a block. The flags do restrict: the input with the unsatisfiable redeem script passes
without them only. -/
theorem redeemedScript_restrict :
    verifyScript sampleCrypto scriptVerifyP2SH
      (transactionSignatureChecker sampleCrypto heldSpend 0)
        (pushBytes [Opcode.op1])
        (payToScriptHash (HashOp.eval sampleCrypto .hash160 [Opcode.op1])) [] = .ok () ∧
      scriptCheck sampleCrypto
        ⟨900000000, payToScriptHash (HashOp.eval sampleCrypto .hash160 [Opcode.op1])⟩ heldSpend 0
        ⟨⟨5, 0⟩, pushBytes [Opcode.op1], 0xffffffff, []⟩ scriptVerifyNone = .ok () ∧
      scriptCheck sampleCrypto heldCoin.out heldSpend 0 heldInput scriptVerifyNone = .ok () ∧
      scriptCheck sampleCrypto heldCoin.out heldSpend 0 heldInput standardScriptVerifyFlags =
        .error (.script .evalFalse) := by
  obtain ⟨hscripts, hinputs⟩ := scriptFlags_restrict sampleCrypto
  refine ⟨?_, ?_, by decide +kernel, by decide +kernel⟩
  · apply hscripts scriptVerifyP2SH standardScriptVerifyFlags
    · decide
    · decide
    · decide
    · decide +kernel
  · apply hinputs
    · decide
    · decide
    · decide +kernel

end Verium
