import Verium.Consensus.SpendRules
import Verium.Script.PayToScriptHash

/-!
How `ConnectBlock` can end on a block that has passed `CheckBlock`. It rejects most bad
blocks by returning false, but nothing before the assertion of `GetTransactionSigOpCost`
asks whether the inputs of a transaction exist, so a block that spends a missing coin stops
the process.
-/

namespace Verium

open Lib

section Scripts

variable {crypto : Crypto}

theorem endsCleanly_runScriptCheck (txout : CTxOut) (tx : CTransaction) (nIn : Nat)
    (txin : CTxIn) : EndsCleanly (runScriptCheck crypto txout tx nIn txin getBlockScriptFlags) := by
  unfold runScriptCheck scriptCheck getBlockScriptFlags
  rw [verifyScript_none]
  cases (do
    let stackCopy ← evalScript crypto [] txin.scriptSig scriptVerifyNone
      (transactionSignatureChecker crypto tx nIn) .base
    let stack ← evalScript crypto stackCopy txout.scriptPubKey scriptVerifyNone
      (transactionSignatureChecker crypto tx nIn) .base
    requireTrue stack) with
  | ok _ => exact endsCleanly_ok _
  | error serror =>
    dsimp only [Except.mapError]
    split
    · exact endsCleanly_error.mpr trivial
    · exact endsCleanly_error.mpr trivial

end Scripts

section LoopBody

variable {env : ConnectEnv} {nHeight : Nat} {fJustCheck : Bool} {s : ConnectState}
  {tx : CTransaction}

theorem endsCleanly_checkInputs {view : CCoinsViewCache} {store pvChecks : Bool}
    {nonce : Bytes} {cache : List UInt256} (havail : Available view.utxo tx.vin) :
    EndsCleanly (checkInputs env.crypto nonce tx view getBlockScriptFlags store pvChecks
      cache) := by
  unfold checkInputs
  split
  · exact endsCleanly_ok _
  dsimp only
  split
  · exact endsCleanly_ok _
  obtain ⟨view', -, hloop⟩ := foldlM_withUnspent (fun input => input.1.prevout)
    (checkInput env.crypto tx getBlockScriptFlags pvChecks) tx.vin.zipIdx () view
  rw [hloop, endsCleanly_bind, endsCleanly_map, endsCleanly_foldlM]
  refine ⟨?_, ?_⟩
  · intro pre input post u hsplit _
    have hmem : input ∈ tx.vin.zipIdx := by
      rw [hsplit]
      simp
    obtain ⟨coin, hcoin⟩ :=
      Option.isSome_iff_exists.mp (havail input.1 (List.fst_mem_of_mem_zipIdx hmem))
    simp only [withCoin, hcoin, checkInput]
    split
    · exact endsCleanly_ok _
    · exact endsCleanly_runScriptCheck _ _ _ _
  · rintro ⟨u, read⟩ -
    dsimp only
    split
    · exact endsCleanly_ok _
    · exact endsCleanly_ok _

theorem asBlockFailure_isInvalid (f : Failure) : (asBlockFailure f).IsInvalid ↔ f.IsInvalid := by
  cases f with
  | invalid reason code text => cases reason <;> exact Iff.rfl
  | error text => exact Iff.rfl
  | assertion text => exact Iff.rfl
  | exception text => exact Iff.rfl

theorem endsCleanly_checkTx (hrange : OutputsInRange tx.vout)
    (havail : tx.isCoinBase = false → Available s.view.utxo tx.vin) :
    EndsCleanly (checkTx env nHeight fJustCheck s tx) := by
  unfold checkTx
  split
  next hspend =>
    rw [Bool.not_eq_true] at hspend
    rw [checkSpend, endsCleanly_bind, endsCleanly_mapError asBlockFailure_isInvalid]
    refine ⟨endsCleanly_checkInputs (havail hspend.1), ?_⟩
    rintro ⟨view, cache⟩ -
    dsimp only
    rw [hrange.getValueOut, ok_bind, endsCleanly_bind]
    exact ⟨endsCleanly_rejectIf_consensus, fun _ _ => endsCleanly_ok _⟩
  next => exact endsCleanly_ok _

/-- The reading part of the loop body ends cleanly exactly when the inputs are available. -/
theorem endsCleanly_admitTx (hrange : OutputsInRange tx.vout) :
    EndsCleanly (admitTx env nHeight fJustCheck s tx) ↔
      (tx.isCoinBase = false → Available s.view.utxo tx.vin) := by
  have hread := tallied_readsTo s tx (Int64.ofInt (outputSum tx.vout))
  rw [admitTx, tallyValues_eq, hrange.getValueOut, ok_bind, ok_bind, endsCleanly_bind, ← hread.utxo]
  generalize tallied s tx (Int64.ofInt (outputSum tx.vout)) = s₁
  constructor
  · rintro ⟨hsigops, -⟩ hspend
    obtain ⟨view', -, hcost⟩ := getTransactionSigOpCost_spend hspend s₁.view
    rw [tallySigOps, hcost, endsCleanly_bind] at hsigops
    by_contra hmissing
    rw [if_neg hmissing, endsCleanly_error] at hsigops
    exact hsigops.1
  · intro havail
    refine ⟨?_, ?_⟩
    · have hcost : ∃ r, getTransactionSigOpCost tx s₁.view getBlockScriptFlags = .ok r := by
        cases hcb : tx.isCoinBase with
        | true => exact ⟨_, getTransactionSigOpCost_coinbase hcb _ _⟩
        | false =>
          obtain ⟨view', -, hcost⟩ := getTransactionSigOpCost_spend hcb s₁.view
          rw [if_pos (havail hcb)] at hcost
          exact ⟨_, hcost⟩
      obtain ⟨⟨cost, view⟩, hcost⟩ := hcost
      rw [tallySigOps, hcost, ok_bind, endsCleanly_bind]
      exact ⟨endsCleanly_rejectIf_consensus, fun _ _ => endsCleanly_ok _⟩
    · intro s₂ hs₂
      obtain ⟨hread₂, -⟩ := tallySigOps_ok hs₂
      exact endsCleanly_checkTx hrange (by rw [hread₂.utxo]; exact havail)

end LoopBody

/-- What the loop needs of a spending transaction to pass it or reject it: its inputs are
unspent coins of the ledger, and if it is admitted none of its outputs lands on one. -/
def MeetsLedger (env : ConnectEnv) (nHeight : Nat) (fJustCheck : Bool) (utxo : UtxoSet)
    (s : ConnectState) (tx : CTransaction) : Prop :=
  Available utxo tx.vin ∧
    ((∃ t, admitTx env nHeight fJustCheck s tx = .ok t) → CreatesFresh env.crypto nHeight utxo tx)

section Loop

variable {env : ConnectEnv} {nHeight : Nat} {fJustCheck : Bool} {block : CBlock}
  {view : CCoinsViewCache} {cache : List UInt256}

theorem endsCleanly_connectTx {done : List CTransaction} {s : ConnectState} {tx : CTransaction}
    (hinv : LoopInv env nHeight block view done s) (hchecked : CheckedTx tx)
    (htx : tx ∈ block.vtx) :
    EndsCleanly (connectTx env nHeight fJustCheck s tx) ↔
      (tx.isCoinBase = false → MeetsLedger env nHeight fJustCheck s.view.utxo s tx) := by
  rw [connectTx, endsCleanly_bind, endsCleanly_admitTx hchecked.outputs]
  have hrest : ∀ t, admitTx env nHeight fJustCheck s tx = .ok t →
      (EndsCleanly (updateCoins env.crypto tx t.view nHeight) ↔
        tx.isCoinBase = true ∨ CreatesFresh env.crypto nHeight s.view.utxo tx) := by
    intro t ht
    have hadmitted := admitTx_admitted ht
    rw [updateCoins_ends (hinv.canUpdate hchecked htx hadmitted.reads) ?_ hchecked.distinct,
      hadmitted.reads.utxo]
    rw [hadmitted.reads.utxo]
    cases hcb : tx.isCoinBase with
    | true => exact .inl rfl
    | false => exact .inr (hadmitted.available hcb)
  constructor
  · rintro ⟨havail, hupdate⟩ hspend
    refine ⟨havail hspend, ?_⟩
    rintro ⟨t, ht⟩
    have hclean := (endsCleanly_bind.mp (hupdate t ht)).1
    rw [hrest t ht, hspend] at hclean
    exact hclean.resolve_left Bool.false_ne_true
  · intro hmeets
    refine ⟨fun hspend => (hmeets hspend).1, fun t ht => ?_⟩
    rw [endsCleanly_bind, hrest t ht]
    refine ⟨?_, fun _ _ => endsCleanly_ok _⟩
    cases hcb : tx.isCoinBase with
    | true => exact .inl rfl
    | false => exact .inr ((hmeets hcb).2 ⟨t, ht⟩)

theorem endsCleanly_checkBIP30 (o : COutPoint) : EndsCleanly (checkBIP30 view o) := by
  unfold checkBIP30
  dsimp only
  rw [endsCleanly_bind]
  exact ⟨endsCleanly_rejectIf_consensus, fun _ _ => endsCleanly_ok _⟩

/-- The part of `ConnectBlock` on the view ends cleanly exactly when every spending
transaction it reaches meets the ledger. -/
theorem endsCleanly_connectTxs (hchecked : CheckedBlock block.vtx) (hsound : view.FlagsSound) :
    EndsCleanly (connectTxs env block nHeight fJustCheck view cache block.vtx) ↔
      ∀ pre tx post s, block.vtx = pre ++ tx :: post → tx.isCoinBase = false →
        connectTxs env block nHeight fJustCheck view cache pre = .ok s →
        MeetsLedger env nHeight fJustCheck (applyTxs env.crypto nHeight view.utxo pre) s tx := by
  have hbip30 : EndsCleanly ((blockOutPoints env.crypto block.vtx).foldlM checkBIP30 view) :=
    endsCleanly_foldlM.mpr fun _ o _ _ _ _ => endsCleanly_checkBIP30 o
  -- at a transaction the loop reaches, the loop invariant describes the view
  have hstep : ∀ pre tx post s, block.vtx = pre ++ tx :: post →
      connectTxs env block nHeight fJustCheck view cache pre = .ok s →
      (EndsCleanly (connectTx env nHeight fJustCheck s tx) ↔
        (tx.isCoinBase = false →
          MeetsLedger env nHeight fJustCheck (applyTxs env.crypto nHeight view.utxo pre) s
            tx)) := by
    intro pre tx post s hsplit hpre
    have hinv := connectTxs_inv hchecked.checked hsound
      (fun tx' hmem => by rw [hsplit]; exact List.mem_append_left _ hmem) hpre
    have hmem : tx ∈ block.vtx := by rw [hsplit]; simp
    rw [← hinv.utxo]
    exact endsCleanly_connectTx hinv (hchecked.checked tx hmem) hmem
  rw [connectTxs, endsCleanly_bind]
  constructor
  · rintro ⟨-, hloop⟩ pre tx post s hsplit hspend hpre
    obtain ⟨read, hread, hfold⟩ := connectTxs_eq_ok.mp hpre
    exact (hstep pre tx post s hsplit hpre).mp
      (endsCleanly_foldlM.mp (hloop read hread) pre tx post s hsplit hfold) hspend
  · intro hall
    refine ⟨hbip30, fun read hread => endsCleanly_foldlM.mpr ?_⟩
    intro pre tx post s hsplit hfold
    have hpre := connectTxs_eq_ok.mpr ⟨read, hread, hfold⟩
    exact (hstep pre tx post s hsplit hpre).mpr fun hspend =>
      hall pre tx post s hsplit hspend hpre

end Loop

section WholeBlock

variable {env : ConnectEnv} {block checked : CBlock} {pindex prev : CBlockIndex}
  {view : CCoinsViewCache} {cache : List UInt256}

theorem checkBlockAgain_of_checkBlock
    (hcheck : checkBlock env.crypto env.check block true true = .ok checked) (fJustCheck : Bool) :
    ∃ fChecked, checkBlockAgain env block fJustCheck = .ok { block with fChecked } := by
  have hagain : ∃ fChecked, checkBlock env.crypto env.check block (!fJustCheck) (!fJustCheck) =
      .ok { block with fChecked } := by
    unfold checkBlock at hcheck ⊢
    cases hmark : block.fChecked with
    | true => exact ⟨true, by simp [pure, Except.pure, ← hmark]⟩
    | false =>
      simp only [hmark, Bool.false_eq_true, if_false] at hcheck ⊢
      obtain ⟨_, hwork, hcheck⟩ := bind_eq_ok.mp hcheck
      obtain ⟨_, hmerkle, hcheck⟩ := bind_eq_ok.mp hcheck
      obtain ⟨_, htxs, -⟩ := bind_eq_ok.mp hcheck
      rw [checkWhen_eq_ok] at hwork hmerkle
      refine ⟨_, bind_eq_ok.mpr ⟨(), checkWhen_eq_ok.mpr fun _ => hwork trivial,
        bind_eq_ok.mpr ⟨(), checkWhen_eq_ok.mpr fun _ => hmerkle trivial,
          bind_eq_ok.mpr ⟨(), htxs, rfl⟩⟩⟩⟩
  obtain ⟨fChecked, hagain⟩ := hagain
  exact ⟨fChecked, by rw [checkBlockAgain, hagain]⟩

theorem endsCleanly_finishBlock {s : ConnectState} {fJustCheck : Bool}
    (hchecked : CheckedBlock block.vtx) :
    EndsCleanly (finishBlock env block pindex prev s fJustCheck) := by
  obtain ⟨coinbase, rest, hvtx, -⟩ := hchecked.coinbase
  have hrange := (hchecked.checked coinbase (by simp [hvtx])).outputs
  simp only [finishBlock, hvtx]
  rw [hrange.getValueOut, ok_bind, endsCleanly_bind]
  refine ⟨endsCleanly_rejectIf_consensus, fun _ _ => ?_⟩
  split
  · exact endsCleanly_ok _
  · exact endsCleanly_ok _

/-- On a block that has passed `CheckBlock` and extends the best block of the view,
`ConnectBlock` returns, with true or with a rejection, exactly when every spending
transaction it reaches spends unspent coins of the ledger and creates none over another. -/
theorem connectBlock_endsCleanly_iff (fJustCheck : Bool)
    (hflag : FCheckedSound block) (hsound : view.FlagsSound)
    (hcheck : checkBlock env.crypto env.check block true true = .ok checked)
    (hindex : pindex.hashBlock = block.getHash env.crypto)
    (hbest : view.getBestBlock = prev.hashBlock) :
    EndsCleanly (connectBlock env block pindex (some prev) view cache fJustCheck) ↔
      block.getHash env.crypto = env.params.hashGenesisBlock ∨
        ∀ pre tx post s, block.vtx = pre ++ tx :: post → tx.isCoinBase = false →
          connectTxs env block pindex.nHeight fJustCheck view cache pre = .ok s →
          MeetsLedger env pindex.nHeight fJustCheck
            (applyTxs env.crypto pindex.nHeight view.utxo pre) s tx := by
  obtain ⟨hchecked, -⟩ := checkBlock_checked hflag hcheck
  obtain ⟨fChecked, hagain⟩ := checkBlockAgain_of_checkBlock hcheck fJustCheck
  have hhash : assertThat (pindex.hashBlock = block.getHash env.crypto)
      "*pindex->phashBlock == block.GetHash()" = .ok () := assertThat_eq_ok.mpr hindex
  have hprev : assertThat (((some prev).map CBlockIndex.hashBlock).getD 0 = view.getBestBlock)
      "hashPrevBlock == view.GetBestBlock()" = .ok () := assertThat_eq_ok.mpr hbest.symm
  rw [connectBlock, hhash, ok_bind, hagain, ok_bind]
  dsimp only
  rw [hprev, ok_bind]
  change EndsCleanly (if block.getHash env.crypto = env.params.hashGenesisBlock then _ else _) ↔ _
  by_cases hgenesis : block.getHash env.crypto = env.params.hashGenesisBlock
  · rw [if_pos hgenesis]
    exact iff_of_true (endsCleanly_ok _) (.inl hgenesis)
  · rw [if_neg hgenesis, or_iff_right hgenesis, endsCleanly_bind]
    have hfinish : ∀ s, EndsCleanly (finishBlock env { block with fChecked } pindex prev s
        fJustCheck) := fun s => endsCleanly_finishBlock hchecked
    refine (and_iff_left fun s _ => hfinish s).trans ?_
    exact endsCleanly_connectTxs hchecked hsound

end WholeBlock

/-- A block that passes all context-free checks and spends a coin that does not exist: the
node aborts. -/
theorem connectBlock_asserts_on_missing_input :
    (∃ checked, checkBlock sampleCrypto sampleEnv.check youngBlock true true = .ok checked) ∧
      contextualCheckBlock youngBlock 10 = .ok () ∧
      (sampleView fun _ => none).getBestBlock = samplePrev.hashBlock ∧
      connectBlock sampleEnv youngBlock (sampleIndex youngBlock 10) (some samplePrev)
        (sampleView fun _ => none) [] false = .error (.assertion "!coin.IsSpent()") := by
  refine ⟨failure?_eq_none.mp (by decide +kernel), ?_, by decide,
    failure?_eq_some.mp (by decide +kernel)⟩
  obtain ⟨_, h⟩ := failure?_eq_none.mp
    (show failure? (contextualCheckBlock youngBlock 10) = none by decide +kernel)
  exact h

theorem youngBlock_endsCleanly_iff :
    EndsCleanly (connectBlock sampleEnv youngBlock (sampleIndex youngBlock 10) (some samplePrev)
        (sampleView youngCoins) [] false) ↔
      youngBlock.getHash sampleEnv.crypto = sampleEnv.params.hashGenesisBlock ∨
        ∀ pre tx post s, youngBlock.vtx = pre ++ tx :: post → tx.isCoinBase = false →
          connectTxs sampleEnv youngBlock (sampleIndex youngBlock 10).nHeight false
            (sampleView youngCoins) [] pre = .ok s →
          MeetsLedger sampleEnv (sampleIndex youngBlock 10).nHeight false
            (applyTxs sampleEnv.crypto (sampleIndex youngBlock 10).nHeight
              (sampleView youngCoins).utxo pre) s tx := by
  have hcheck : ∃ checked,
      checkBlock sampleEnv.crypto sampleEnv.check youngBlock true true = .ok checked :=
    failure?_eq_none.mp (by decide +kernel)
  obtain ⟨checked, hcheck⟩ := hcheck
  exact connectBlock_endsCleanly_iff false (sampleBlock_fCheckedSound _)
    (sampleView_flagsSound _) hcheck rfl rfl

end Verium
