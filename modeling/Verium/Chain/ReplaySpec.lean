import Verium.Chain.Replay
import Verium.Coins.StackSpec
import Verium.Consensus.UndoSpec

/-!
Crash recovery. Rolling a block back or forward makes a list of writes that does not depend on
the coins at hand, and that takes the ledger at one block to the ledger at the other. So the whole
replay is one list of writes. Where it writes, the mixture of old and new coins it starts from does
not matter; where it does not, old and new agree.
-/

namespace Verium

open Lib CCoinsViewCache

section Coherence

variable {view view' : CCoinsViewCache} {crypto : Crypto} {tx : CTransaction} {nHeight : Nat}

theorem dropCoin_writesTo (hsound : view.FlagsSound) (outpoint : COutPoint) :
    view.WritesTo (view.dropCoin outpoint) (Function.update view.utxo outpoint none) := by
  unfold dropCoin
  cases hspend : view.spendCoin outpoint with
  | none =>
    rw [← utxo_of_spendCoin_none hspend, Function.update_eq_self]
    exact (ReadsTo.refl view).writesTo hsound
  | some spent => exact (spendCoin_writesTo hsound hspend).2

theorem dropInputs_writesTo (hsound : view.FlagsSound) (vin : List CTxIn) :
    view.WritesTo (vin.foldl (fun view txin => view.dropCoin txin.prevout) view)
      (eraseAll view.utxo (vin.map CTxIn.prevout)) := by
  induction vin generalizing view with
  | nil => exact (ReadsTo.refl view).writesTo hsound
  | cons txin rest ih =>
    have hdrop := dropCoin_writesTo hsound txin.prevout
    have hrest := ih hdrop.flagsSound
    rw [hdrop.utxo] at hrest
    exact hdrop.trans hrest

theorem addOutputs_writesTo (crypto : Crypto) (tx : CTransaction) (nHeight : Nat)
    {outputs : List (CTxOut × Nat)} (hsound : view.FlagsSound)
    (hnull : ∀ output ∈ outputs, output.1.isNull = false) :
    ∃ view', outputs.foldlM (addOutput crypto tx nHeight true) view = .ok view' ∧
      view.WritesTo view'
        (insertAll view.utxo (outputs.filterMap (createdCoin crypto tx nHeight))) := by
  induction outputs generalizing view with
  | nil => exact ⟨view, rfl, (ReadsTo.refl view).writesTo hsound⟩
  | cons output rest ih =>
    rw [List.forall_mem_cons] at hnull
    have hunspent : (Coin.ofTxOut output.1 nHeight tx.isCoinBase).isSpent = false := hnull.1
    rw [List.foldlM_cons]
    cases hcreated : createdCoin crypto tx nHeight output with
    | none =>
      have hunspendable : isUnspendable output.1.scriptPubKey = true := by
        simpa [createdCoin] using hcreated
      have hread := (view.haveCoin_readsTo (tx.outPoint crypto output.2)).writesTo hsound
      obtain ⟨view', hrest, hview⟩ := ih hread.flagsSound hnull.2
      rw [hread.utxo] at hview
      rw [List.filterMap_cons_none hcreated]
      refine ⟨view', ?_, hread.trans hview⟩
      exact (congrArg (· >>= _) (addCoin_unspendable hunspent hunspendable _)).trans hrest
    | some e =>
      obtain ⟨hspendable, hkey, hcoin⟩ := createdCoin_eq_some hcreated
      obtain ⟨mid, hadd, hwrites⟩ := haveCoin_addCoin hsound (tx.outPoint crypto output.2)
        hunspent hspendable
      obtain ⟨view', hrest, hview⟩ := ih hwrites.flagsSound hnull.2
      rw [hwrites.utxo, ← hkey, ← hcoin] at hview
      rw [List.filterMap_cons_some hcreated]
      refine ⟨view', ?_, hwrites.trans hview⟩
      exact (congrArg (· >>= _) hadd).trans hrest

theorem rollforwardTx_writesTo (hsound : view.FlagsSound) (hchecked : CheckedTx tx) :
    ∃ view', rollforwardTx crypto nHeight view tx = .ok view' ∧
      view.WritesTo view' (applyTx crypto nHeight view.utxo tx) := by
  have hspent : view.WritesTo (if tx.isCoinBase then view else
      tx.vin.foldl (fun view txin => view.dropCoin txin.prevout) view) (spendTx view.utxo tx) := by
    unfold spendTx spentOutPoints
    split
    · exact (ReadsTo.refl view).writesTo hsound
    · exact dropInputs_writesTo hsound tx.vin
  obtain ⟨view', hadd, hview⟩ := addOutputs_writesTo crypto tx nHeight hspent.flagsSound
    fun output hmem => hchecked.outputs.not_isNull output.1 (List.fst_mem_of_mem_zipIdx hmem)
  rw [hspent.utxo] at hview
  exact ⟨view', hadd, hspent.trans hview⟩

/-- The cache after operations that leave the UTXO set `utxo'`. -/
structure CoherentTo (view view' : CCoinsViewCache) (utxo' : UtxoSet) : Prop where
  coherent : view'.Coherent
  base : view'.base = view.base
  utxo : view'.utxo = utxo'

theorem CoherentTo.trans {mid : CCoinsViewCache} {utxo' utxo'' : UtxoSet}
    (h : CoherentTo view mid utxo') (h' : CoherentTo mid view' utxo'') :
    CoherentTo view view' utxo'' :=
  ⟨h'.coherent, h'.base.trans h.base, h'.utxo⟩

end Coherence

/-! ### Procedures that make the same writes on every view -/

/-- The procedure makes the same writes on every coherent cache, and they take the ledger `u` to
the ledger `u'`. -/
def Rewrites {ε : Type} (run : CCoinsViewCache → Except ε CCoinsViewCache) (u u' : UtxoSet) :
    Prop :=
  ∃ writes, writeAll u writes = u' ∧ ∀ view : CCoinsViewCache, view.Coherent →
    ∃ view', run view = .ok view' ∧ CoherentTo view view' (writeAll view.utxo writes)

namespace Rewrites

variable {ε : Type} {f g : CCoinsViewCache → Except ε CCoinsViewCache} {u u' u'' : UtxoSet}

theorem refl (u : UtxoSet) : Rewrites (fun view => (.ok view : Except ε _)) u u :=
  ⟨[], rfl, fun view h => ⟨view, rfl, h, rfl, rfl⟩⟩

theorem bind (hf : Rewrites f u u') (hg : Rewrites g u' u'') :
    Rewrites (fun view => f view >>= g) u u'' := by
  obtain ⟨writes, rfl, hf⟩ := hf
  obtain ⟨later, rfl, hg⟩ := hg
  refine ⟨writes ++ later, writeAll_append u writes later, fun view h => ?_⟩
  obtain ⟨mid, hmid, hfirst⟩ := hf view h
  obtain ⟨view', hview, hsecond⟩ := hg mid hfirst.coherent
  refine ⟨view', ?_, ?_⟩
  · dsimp only
    rw [hmid, ok_bind, hview]
  · rw [hfirst.utxo, ← writeAll_append] at hsecond
    exact hfirst.trans hsecond

theorem mapError {ε' : Type} (h : Rewrites f u u') (e : ε → ε') :
    Rewrites (fun view => (f view).mapError e) u u' := by
  obtain ⟨writes, hu, hrun⟩ := h
  refine ⟨writes, hu, fun view hview => ?_⟩
  obtain ⟨view', hok, hto⟩ := hrun view hview
  exact ⟨view', mapError_eq_ok.mpr hok, hto⟩

theorem rollforwardTx {tx : CTransaction} (hchecked : CheckedTx tx) (crypto : Crypto)
    (nHeight : Nat) (u : UtxoSet) :
    Rewrites (Verium.rollforwardTx crypto nHeight · tx) u (applyTx crypto nHeight u tx) := by
  have hwrites : ∀ w : UtxoSet, writeAll w
      ((spentOutPoints tx).map (fun o => (o, none)) ++
        (createdCoins crypto tx nHeight).map fun e => (e.1, some e.2)) =
      applyTx crypto nHeight w tx := by
    intro w
    rw [writeAll_append, ← eraseAll_eq_writeAll, ← insertAll_eq_writeAll]
    rfl
  refine ⟨_, hwrites u, fun view hview => ?_⟩
  rw [hwrites]
  obtain ⟨view', hok, hto⟩ := rollforwardTx_writesTo hview.flagsSound hchecked
  exact ⟨view', hok, hto.coherent hview, hto.base, hto.utxo⟩

theorem rollforwardTxs {txs : List CTransaction} (hchecked : ∀ tx ∈ txs, CheckedTx tx)
    (crypto : Crypto) (nHeight : Nat) (u : UtxoSet) :
    Rewrites (txs.foldlM (Verium.rollforwardTx crypto nHeight)) u
      (applyTxs crypto nHeight u txs) := by
  induction txs generalizing u with
  | nil => exact refl u
  | cons tx rest ih =>
    rw [List.forall_mem_cons] at hchecked
    exact (rollforwardTx hchecked.1 crypto nHeight u).bind (ih hchecked.2 _)

/-- Where something is written, what was there does not matter; elsewhere the two ledgers agree.
So the procedure repairs any mixture of them. -/
theorem repairs (h : Rewrites f u u') {view : CCoinsViewCache} (hview : view.Coherent)
    (hmixed : ∀ o, view.utxo o = u o ∨ view.utxo o = u' o) :
    ∃ view', f view = .ok view' ∧ CoherentTo view view' u' := by
  obtain ⟨writes, rfl, hrun⟩ := h
  obtain ⟨view', hok, hto⟩ := hrun view hview
  refine ⟨view', hok, hto.coherent, hto.base, ?_⟩
  rw [hto.utxo]
  funext o
  apply writeAll_congr
  by_cases hmem : o ∈ writes.map Prod.fst
  · exact .inl hmem
  · rcases hmixed o with hold | hnew
    · exact .inr hold
    · rw [writeAll_of_notMem hmem] at hnew
      exact .inr hnew

end Rewrites

section Blocks

variable {env : ReplayEnv} {p q : BlockPtr} {u u' : UtxoSet}

/-- The block `p`, as it is on disk, was connected on the ledger `u` and left `u'`, and its undo
data was written. -/
def ConnectedOn (env : ReplayEnv) (p : BlockPtr) (u u' : UtxoSet) : Prop :=
  ∃ (connectEnv : ConnectEnv) (block stored : CBlock) (pindex : CBlockIndex)
    (pprev : Option CBlockIndex) (view : CCoinsViewCache) (cache : List UInt256) (res : Connected),
    connectEnv.crypto = env.crypto ∧ FCheckedSound block ∧
    block.getHash connectEnv.crypto ≠ connectEnv.params.hashGenesisBlock ∧
    pindex.nHeight = (env.entry p).nHeight ∧ view.FlagsSound ∧ view.utxo = u ∧
    connectBlock connectEnv block pindex pprev view cache false = .ok res ∧ res.view.utxo = u' ∧
    env.readBlockFromDisk p = some stored ∧ stored.vtx = block.vtx ∧
    env.undoReadFromDisk p = some res.blockundo

/-- The UTXO set at a block all of whose chain has been connected. Connecting the genesis block
adds no coins. -/
inductive UtxoAt (env : ReplayEnv) : BlockPtr → UtxoSet → Prop where
  | genesis {p : BlockPtr} : (env.entry p).pprev = none → UtxoAt env p fun _ => none
  | connected {p q : BlockPtr} {u u' : UtxoSet} : (env.entry p).pprev = some q → UtxoAt env q u →
      ConnectedOn env p u u' → UtxoAt env p u'

/-- What connecting a block has left, in terms of ledgers. -/
structure LedgerStep (env : ReplayEnv) (p : BlockPtr) (u u' : UtxoSet) (block : CBlock)
    (vtxundo : List (List Coin)) : Prop where
  stored : env.readBlockFromDisk p = some block
  undo : env.undoReadFromDisk p = some vtxundo
  records : BlockUndo env.crypto (env.entry p).nHeight u block.vtx vtxundo
  utxo : u' = applyTxs env.crypto (env.entry p).nHeight u block.vtx
  unspent : ∀ o c, u' o = some c → c.isSpent = false

theorem ConnectedOn.ledgerStep (h : ConnectedOn env p u u') :
    ∃ block vtxundo, LedgerStep env p u u' block vtxundo := by
  obtain ⟨connectEnv, block, stored, pindex, pprev, view, cache, res, hcrypto, hflag, hgenesis,
    hheight, hsound, rfl, hconnect, rfl, hstored, hvtx, hundo⟩ := h
  have hto := connectBlock_connectedTo hflag hgenesis hsound hconnect
  have hrecords := hto.undo
  have hutxo := hto.utxo
  rw [hcrypto, hheight, ← hvtx] at hrecords hutxo
  exact ⟨stored, res.blockundo, hstored, hundo, hrecords, hutxo,
    fun o c hc => (utxo_eq_some.mp hc).2⟩

theorem UtxoAt.of_pprev (h : UtxoAt env p u') (hprev : (env.entry p).pprev = some q) :
    ∃ u, UtxoAt env q u ∧ ∃ block vtxundo, LedgerStep env p u u' block vtxundo := by
  cases h with
  | genesis hroot =>
    rw [hroot] at hprev
    cases hprev
  | connected hprev' hq hconnected =>
    rw [hprev'] at hprev
    cases hprev
    exact ⟨_, hq, hconnected.ledgerStep⟩

theorem UtxoAt.unique (h : UtxoAt env p u) (h' : UtxoAt env p u') : u = u' := by
  induction h generalizing u' with
  | genesis hroot =>
    cases h' with
    | genesis => rfl
    | connected hprev =>
      rw [hroot] at hprev
      cases hprev
  | connected hprev _ hconnected ih =>
    obtain ⟨v, hv, block, vtxundo, hstep⟩ := h'.of_pprev hprev
    obtain ⟨block', vtxundo', hstep'⟩ := hconnected.ledgerStep
    have hblock := hstep.stored.symm.trans hstep'.stored
    cases hblock
    rw [hstep.utxo, hstep'.utxo, ih hv]

theorem BlockUndo.checkedTx {crypto : Crypto} {nHeight : Nat} {vtx : List CTransaction}
    {vtxundo : List (List Coin)} (h : BlockUndo crypto nHeight u vtx vtxundo) :
    ∀ tx ∈ vtx, CheckedTx tx := by
  obtain ⟨coinbase, rest, rfl, hcoinbase, -, -, hrecords⟩ := h
  have hrest : ∀ {utxo txs us}, UndoRecords crypto nHeight utxo txs us →
      ∀ tx ∈ txs, CheckedTx tx := by
    intro utxo txs
    induction txs generalizing utxo with
    | nil => simp
    | cons tx txs ih =>
      intro us hus
      cases us with
      | nil => exact hus.elim
      | cons txundo us => exact List.forall_mem_cons.mpr ⟨hus.1, ih hus.2.2.2.2.2⟩
  exact List.forall_mem_cons.mpr ⟨hcoinbase, hrest hrecords⟩

theorem applyTxs_eq_some {crypto : Crypto} {nHeight : Nat} {txs : List CTransaction}
    {o : COutPoint} {c : Coin} (h : applyTxs crypto nHeight u txs o = some c) :
    u o = some c ∨ ∃ tx ∈ txs, (o, c) ∈ createdCoins crypto tx nHeight := by
  induction txs generalizing u with
  | nil => exact .inl h
  | cons tx rest ih =>
    rcases ih h with hold | ⟨tx', hmem, hcreated⟩
    · rcases insertAll_eq_some hold with hold | hnew
      · exact .inl (eraseAll_eq_some hold)
      · exact .inr ⟨tx, List.mem_cons_self, hnew⟩
    · exact .inr ⟨tx', List.mem_cons_of_mem _ hmem, hcreated⟩

theorem rollforwardBlock_rewrites {block : CBlock} {vtxundo : List (List Coin)}
    (h : LedgerStep env p u u' block vtxundo) : Rewrites (rollforwardBlock env · p) u u' := by
  have htxs := Rewrites.rollforwardTxs h.records.checkedTx env.crypto (env.entry p).nHeight u
  rw [← h.utxo] at htxs
  unfold rollforwardBlock
  rw [h.stored]
  exact htxs.mapError ReplayStop.failure

section Tree

variable {S : BlockPtr → Prop} (ht : BlockTree env.entry S)

include ht

/-- The coins of a ledger can be put back by the undo code. -/
theorem UtxoAt.coins (h : UtxoAt env p u) (hp : S p) (hheight : (env.entry p).nHeight < 2 ^ 31) :
    ∀ o c, u o = some c → c.Restorable ∧ c.isSpent = false := by
  induction h with
  | genesis =>
    intro o c hc
    cases hc
  | connected hprev _ hconnected ih =>
    intro o c hc
    have hsucc := ht.graded.succ hp hprev
    obtain ⟨block, vtxundo, hstep⟩ := hconnected.ledgerStep
    refine ⟨?_, hstep.unspent o c hc⟩
    rw [hstep.utxo] at hc
    rcases applyTxs_eq_some hc with hold | ⟨tx, -, hcreated⟩
    · exact (ih (ht.graded.mem hp hprev) (by omega) o c hold).1
    · exact restorable_of_created (by omega) hheight hcreated

theorem rollbackBlock_rewrites (h : UtxoAt env p u') (hp : S p)
    (hheight : (env.entry p).nHeight < 2 ^ 31) (hprev : (env.entry p).pprev = some q) :
    ∃ u, UtxoAt env q u ∧ Rewrites (rollbackBlock env · p) u' u := by
  obtain ⟨u, hu, block, vtxundo, hstep⟩ := h.of_pprev hprev
  have hsucc := ht.graded.succ hp hprev
  have hcoins := hu.coins ht (ht.graded.mem hp hprev) (by omega)
  have hrestorable : ∀ tx ∈ block.vtx, ∀ o ∈ spentOutPoints tx, ∀ c, u o = some c →
      c.Restorable := fun _ _ o _ c hc => (hcoins o c hc).1
  obtain ⟨writes, hback, hrun⟩ := undoTxs_writes (by omega) hheight hstep.records hrestorable
  rw [← hstep.utxo] at hback
  refine ⟨u, hu, writes, hback, fun view hview => ?_⟩
  obtain ⟨clean, view', hok, hwrites, -⟩ := hrun view hview.flagsSound
  have hcoherent := hwrites.coherent hview
  refine ⟨view'.setBestBlock (env.entry q).hashBlock, ?_,
    ⟨hcoherent.clean, hcoherent.fresh, hcoherent.usage⟩, hwrites.base, hwrites.utxo⟩
  have hpos : (env.entry p).nHeight ≠ 0 := by omega
  simp only [rollbackBlock, if_neg hpos, hstep.stored, hstep.undo, hprev, disconnectBlock, hok,
    Option.map_some]
  cases clean <;> rfl

theorem rollback_rewrites {fork : BlockPtr} {v : UtxoSet} (h : UtxoAt env p u) (hp : S p)
    (hheight : (env.entry p).nHeight < 2 ^ 31) (hanc : IsAncestor env.entry fork p)
    (hfork : UtxoAt env fork v) {fuel : Nat} (hfuel : (env.entry p).nHeight < fuel) :
    Rewrites (rollback env (some fork) fuel (some p)) u v := by
  induction hanc generalizing u fuel with
  | refl =>
    obtain ⟨fuel, rfl⟩ : ∃ k, fuel = k + 1 := ⟨fuel - 1, by omega⟩
    have hdone : rollback env (some fork) (fuel + 1) (some fork) = fun cache => .ok cache := by
      funext cache
      rw [rollback, if_pos rfl]
    rw [h.unique hfork, hdone]
    exact .refl v
  | @step p q hprev hanc ih =>
    obtain ⟨fuel, rfl⟩ : ∃ k, fuel = k + 1 := ⟨fuel - 1, by omega⟩
    have hsucc := ht.graded.succ hp hprev
    have hle := ht.graded.height_le (ht.graded.mem hp hprev) hanc
    have hne : some p ≠ some fork := by
      intro heq
      cases heq
      omega
    obtain ⟨w, hw, hblock⟩ := rollbackBlock_rewrites ht h hp hheight hprev
    have hrest : Rewrites (rollback env (some fork) fuel (some q)) w v :=
      ih hw (ht.graded.mem hp hprev) (by omega) (by omega)
    have hround : rollback env (some fork) (fuel + 1) (some p) =
        fun cache => rollbackBlock env cache p >>= rollback env (some fork) fuel (some q) := by
      funext cache
      rw [rollback, if_neg hne, ← hprev]
    rw [hround]
    exact hblock.bind hrest

theorem rollforward_rewrites {fork new : BlockPtr} {v : UtxoSet} (hfork : UtxoAt env fork v)
    (hnew : S new) (hanc : IsAncestor env.entry fork new) {n : Nat} {a : BlockPtr}
    (ha : UtxoAt env a u) (hanew : IsAncestor env.entry a new)
    (hheight : (env.entry a).nHeight = (env.entry fork).nHeight + n) :
    Rewrites ((List.range' ((env.entry fork).nHeight + 1) n).foldlM (rollforwardTo env new))
      v u := by
  induction n generalizing a u with
  | zero =>
    rw [ht.graded.ancestor_unique hnew hanew hanc hheight] at ha
    rw [ha.unique hfork]
    exact .refl v
  | succ n ih =>
    cases hprev : (env.entry a).pprev with
    | none =>
      have hroot := ht.graded.root (ht.graded.ancestor_mem hnew hanew) hprev
      omega
    | some b =>
      have hsucc := ht.graded.succ (ht.graded.ancestor_mem hnew hanew) hprev
      obtain ⟨w, hw, block, vtxundo, hstep⟩ := ha.of_pprev hprev
      have hrest := ih hw ((Ancestor.of_parent hprev).trans hanew) (by omega)
      -- the ancestor at the next height is the block `a`
      have hle := ht.graded.height_le hnew hanew
      obtain ⟨a', hat, ha', hheight'⟩ := getAncestor_ok ht hnew hle
      have hsame := ht.graded.ancestor_unique hnew ha' hanew hheight'
      rw [hsame, hheight, show (env.entry fork).nHeight + (n + 1) =
        (env.entry fork).nHeight + 1 + n by omega] at hat
      have hlast : (rollforwardTo env new · ((env.entry fork).nHeight + 1 + n)) =
          (rollforwardBlock env · a) := by
        funext cache
        rw [rollforwardTo, hat]
        rfl
      have hblock := rollforwardBlock_rewrites hstep
      rw [← hlast] at hblock
      have hloop : (List.range' ((env.entry fork).nHeight + 1) (n + 1)).foldlM
          (rollforwardTo env new) = fun cache =>
            (List.range' ((env.entry fork).nHeight + 1) n).foldlM (rollforwardTo env new) cache >>=
              (rollforwardTo env new · ((env.entry fork).nHeight + 1 + n)) := by
        funext cache
        rw [List.range'_concat, List.foldlM_append, Nat.one_mul]
        simp
      rw [hloop]
      exact hrest.bind hblock

theorem lastCommonAncestor_common (hroot : ∀ {a b}, S a → S b → (env.entry a).pprev = none →
      (env.entry b).pprev = none → a = b) (hp : S p) (hq : S q) :
    ∃ fork, lastCommonAncestor env.entry p q = .ok (some fork) ∧
      IsAncestor env.entry fork p ∧ IsAncestor env.entry fork q := by
  obtain ⟨genesis, hgp, hgzero⟩ := ht.graded.exists_ancestor hp (Nat.zero_le _)
  obtain ⟨genesis', hgq, hgzero'⟩ := ht.graded.exists_ancestor hq (Nat.zero_le _)
  have hg := ht.graded.ancestor_mem hp hgp
  have hg' := ht.graded.ancestor_mem hq hgq
  have hsame : genesis = genesis' :=
    hroot hg hg' (ht.graded.parent_eq_none hg hgzero) (ht.graded.parent_eq_none hg' hgzero')
  subst hsame
  obtain ⟨fork, hlast, hfork⟩ := lastCommonAncestor_isFork ht hp hq hgp hgq
  exact ⟨fork, hlast, hfork.ofEntry, hfork.ofTip⟩

end Tree

end Blocks

/-! ### Databases in the middle of a write -/

/-- The database is marked as lying between two tips, and every coin is as at one of them. -/
structure MidWrite (hashNew hashOld : UInt256) (uOld uNew : UtxoSet) (db : CCoinsViewDB) :
    Prop where
  coins : ∀ o, db.coins o = uOld o ∨ db.coins o = uNew o
  bestBlock : db.bestBlock = none
  headBlocks : db.headBlocks = some [hashNew, hashOld]

/-- The database is that of the new tip. -/
structure Recovered (hashNew : UInt256) (uNew : UtxoSet) (db : CCoinsViewDB) : Prop where
  coins : db.coins = uNew
  bestBlock : db.bestBlock = some hashNew
  headBlocks : db.headBlocks = none

section Batches

open CCoinsViewDB

variable {db : CCoinsViewDB} {hashBlock : UInt256}

theorem writeBatch_append (db : CCoinsViewDB) (batch later : List BatchOp) :
    db.writeBatch (batch ++ later) = (db.writeBatch batch).writeBatch later :=
  List.foldl_append

theorem writeBatch_entryOps (db : CCoinsViewDB)
    (entries : List ((_ : COutPoint) × CCoinsCacheEntry)) :
    db.writeBatch (entries.flatMap entryOps) =
      { db with coins := writeAll db.coins (dirtyWrites entries) } := by
  induction entries generalizing db with
  | nil => rfl
  | cons it rest ih =>
    rw [List.flatMap_cons, writeBatch_append, ih, dirtyWrites_cons it rest, writeAll_append]
    unfold entryOps dirtyWrites
    cases hdirty : it.2.dirty with
    | false => simp [writeBatch, hdirty]
    | true =>
      cases hspent : it.2.coin.isSpent with
      | false => simp [writeBatch, applyOp, writeAll, Coin.unspent, hdirty, hspent]
      | true => simp [writeBatch, applyOp, writeAll, Coin.unspent, hdirty, hspent]

/-- Each batch but the last leaves the database after some of the entries, and the last one
after all of them. -/
theorem writeBatches_states (full : List BatchOp → Bool) (hashBlock : UInt256)
    (entries : List ((_ : COutPoint) × CCoinsCacheEntry)) (db : CCoinsViewDB)
    (batch : List BatchOp) :
    (∀ db' ∈ writeBatches full hashBlock db batch entries,
      (∃ done rest, entries = done ++ rest ∧
        db' = db.writeBatch (batch ++ done.flatMap entryOps)) ∨
      db' = db.writeBatch (batch ++ entries.flatMap entryOps ++
        [.eraseHeadBlocks, .writeBestBlock hashBlock])) ∧
    (writeBatches full hashBlock db batch entries).getLast? =
      some (db.writeBatch (batch ++ entries.flatMap entryOps ++
        [.eraseHeadBlocks, .writeBestBlock hashBlock])) := by
  induction entries generalizing db batch with
  | nil => simp [writeBatches]
  | cons it rest ih =>
    rw [writeBatches]
    dsimp only
    split
    next hfull =>
      obtain ⟨hstates, hlast⟩ := ih (db.writeBatch (batch ++ entryOps it)) []
      simp only [List.nil_append, ← writeBatch_append] at hstates hlast
      constructor
      · intro db' hdb'
        rcases List.mem_cons.mp hdb' with rfl | hdb'
        · exact .inl ⟨[it], rest, rfl, by simp⟩
        · rcases hstates db' hdb' with ⟨done, later, rfl, rfl⟩ | rfl
          · exact .inl ⟨it :: done, later, rfl, by simp⟩
          · exact .inr (by simp)
      · rw [List.getLast?_cons, hlast]
        simp
    next hfull =>
      obtain ⟨hstates, hlast⟩ := ih db (batch ++ entryOps it)
      constructor
      · intro db' hdb'
        rcases hstates db' hdb' with ⟨done, later, rfl, rfl⟩ | rfl
        · exact .inl ⟨it :: done, later, rfl, by simp⟩
        · exact .inr (by simp)
      · rw [hlast]
        simp

/-- `BatchWrite` of a cache that shows the ledger at the new tip, on a database between the two
tips: at every batch boundary the database is still between them, or it is done. -/
theorem batchWrite_states {view : CCoinsViewCache} {hashOld : UInt256} {uOld uNew : UtxoSet}
    (hmixed : ∀ o, db.coins o = uOld o ∨ db.coins o = uNew o)
    (hold : db.oldTip hashBlock = .ok hashOld) (hhash : hashBlock ≠ 0) (hview : view.Coherent)
    (hbase : view.base.utxo = db.coins) (hutxo : view.utxo = uNew) (order : HashOrder)
    (full : List BatchOp → Bool) :
    ∃ states, db.batchWrite full (order.visit view.cacheCoins) hashBlock = .ok states ∧
      (∀ db' ∈ states, MidWrite hashBlock hashOld uOld uNew db' ∨ Recovered hashBlock uNew db') ∧
      ∃ last, states.getLast? = some last ∧ Recovered hashBlock uNew last := by
  have hperm := order.perm view.cacheCoins
  have hwritten : ∀ w ∈ dirtyWrites (order.visit view.cacheCoins), w.2 = uNew w.1 := by
    rintro ⟨o, found⟩ hw
    obtain ⟨entry, hentry, -, rfl⟩ := mem_dirtyWrites.mp hw
    have hlookup : view.cacheCoins.lookup o = some entry :=
      AList.mem_lookup_iff.mpr (hperm.mem_iff.mp hentry)
    rw [← hutxo, utxo_of_lookup hlookup]
  have hall := hview.writeAll_dirtyWrites hperm
  rw [hbase, hutxo] at hall
  generalize order.visit view.cacheCoins = entries at hwritten hall
  obtain ⟨hstates, hlast⟩ := writeBatches_states full hashBlock entries db
    [.eraseBestBlock, .writeHeadBlocks [hashBlock, hashOld]]
  have hdone : ∀ done : List ((_ : COutPoint) × CCoinsCacheEntry), db.writeBatch
      ([.eraseBestBlock, .writeHeadBlocks [hashBlock, hashOld]] ++ done.flatMap entryOps) =
      ⟨writeAll db.coins (dirtyWrites done), none, some [hashBlock, hashOld]⟩ := by
    intro done
    rw [writeBatch_append, writeBatch_entryOps]
    rfl
  have hfinal : Recovered hashBlock uNew (db.writeBatch
      ([.eraseBestBlock, .writeHeadBlocks [hashBlock, hashOld]] ++ entries.flatMap entryOps ++
        [.eraseHeadBlocks, .writeBestBlock hashBlock])) := by
    rw [writeBatch_append, hdone, hall]
    exact ⟨rfl, rfl, rfl⟩
  refine ⟨_, ?_, ?_, _, hlast, hfinal⟩
  · rw [CCoinsViewDB.batchWrite, assertThat_of hhash, ok_bind, hold]
    rfl
  · intro db' hdb'
    rcases hstates db' hdb' with ⟨done, rest, rfl, rfl⟩ | rfl
    · left
      rw [hdone]
      refine ⟨fun o => ?_, rfl, rfl⟩
      have hpart : ∀ w ∈ dirtyWrites done, w.1 = o → w.2 = uNew o := by
        rintro w hw rfl
        refine hwritten w ?_
        rw [dirtyWrites, List.filterMap_append]
        exact List.mem_append_left _ hw
      by_cases hmem : o ∈ (dirtyWrites done).map Prod.fst
      · exact .inr (writeAll_of_forall hpart (.inl hmem))
      · have hsame : writeAll db.coins (dirtyWrites done) o = db.coins o := writeAll_of_notMem hmem
        dsimp only
        rw [hsame]
        exact hmixed o
    · exact .inr hfinal

end Batches

/-! ### Recovery -/

/-- The tip a write starts from: a block, or none when the database is new. -/
inductive OldTip (env : ReplayEnv) (S : BlockPtr → Prop) : UInt256 → UtxoSet → Prop where
  | fresh : OldTip env S 0 fun _ => none
  | block {p : BlockPtr} {u : UtxoSet} : S p → UtxoAt env p u →
      env.blockIndex (env.entry p).hashBlock = some p → (env.entry p).hashBlock ≠ 0 →
      (env.entry p).nHeight < 2 ^ 31 → OldTip env S (env.entry p).hashBlock u

/-- Two tips of a block tree with one root, and the UTXO sets at them. -/
structure TwoTips (env : ReplayEnv) (S : BlockPtr → Prop) (hashOld : UInt256) (new : BlockPtr)
    (uOld uNew : UtxoSet) : Prop where
  tree : BlockTree env.entry S
  root : ∀ {a b}, S a → S b → (env.entry a).pprev = none → (env.entry b).pprev = none → a = b
  old : OldTip env S hashOld uOld
  newMem : S new
  utxoNew : UtxoAt env new uNew
  indexed : env.blockIndex (env.entry new).hashBlock = some new
  hash : (env.entry new).hashBlock ≠ 0
  height : (env.entry new).nHeight < 2 ^ 31

section Recovery

variable {env : ReplayEnv} {S : BlockPtr → Prop} {hashOld : UInt256} {new : BlockPtr}
  {uOld uNew : UtxoSet}

theorem UtxoAt.of_ancestor {a p : BlockPtr} {u : UtxoSet} (h : UtxoAt env p u)
    (hanc : IsAncestor env.entry a p) : ∃ v, UtxoAt env a v := by
  induction hanc generalizing u with
  | refl => exact ⟨u, h⟩
  | step hprev _ ih =>
    obtain ⟨w, hw, -⟩ := h.of_pprev hprev
    exact ih hw

/-- The replay takes the ledger at the old tip to the ledger at the new one. -/
theorem TwoTips.replayCache_rewrites (h : TwoTips env S hashOld new uOld uNew) :
    ∃ pindexOld pindexFork, findFork env hashOld new = .ok (pindexOld, pindexFork) ∧
      Rewrites (replayCache env pindexOld pindexFork new) uOld uNew := by
  cases h.old with
  | fresh =>
    -- nothing is rolled back, and the genesis block has no coins to roll forward
    obtain ⟨g, hg, hzero⟩ := h.tree.graded.exists_ancestor h.newMem (Nat.zero_le _)
    have hroot :=
      h.tree.graded.parent_eq_none (h.tree.graded.ancestor_mem h.newMem hg) hzero
    refine ⟨none, none, if_pos rfl, ?_⟩
    have hforward := rollforward_rewrites h.tree (.genesis hroot) h.newMem hg
      (n := (env.entry new).nHeight) h.utxoNew (.refl new) (by omega)
    rw [hzero] at hforward
    exact hforward
  | @block p u hp hu hindexed hne hheight =>
    obtain ⟨fork, hlca, hforkOld, hforkNew⟩ := lastCommonAncestor_common h.tree h.root hp h.newMem
    obtain ⟨v, hv⟩ := hu.of_ancestor hforkOld
    refine ⟨some p, some fork, ?_, ?_⟩
    · rw [findFork, if_neg hne, hindexed]
      dsimp only
      rw [hlca]
    · have hle := h.tree.graded.height_le h.newMem hforkNew
      have hback := rollback_rewrites h.tree hu hp hheight hforkOld hv
        (show (env.entry p).nHeight < (env.entry p).nHeight + 2 by omega)
      have hforward := rollforward_rewrites h.tree hv h.newMem hforkNew
        (n := (env.entry new).nHeight - (env.entry fork).nHeight) h.utxoNew (.refl new) (by omega)
      exact hback.bind hforward

theorem OldTip.unspent (h : OldTip env S hashOld uOld) (ht : BlockTree env.entry S) :
    ∀ o c, uOld o = some c → c.isSpent = false := by
  cases h with
  | fresh =>
    intro o c hc
    cases hc
  | block hp hu _ _ hheight => exact fun o c hc => (hu.coins ht hp hheight o c hc).2

/-- A database holds no spent coins, so as a view it shows what it holds. -/
theorem asView_utxo {db : CCoinsViewDB}
    (hunspent : ∀ o c, db.coins o = some c → c.isSpent = false) : db.asView.utxo = db.coins := by
  funext o
  change (db.coins o).filter _ = _
  cases hc : db.coins o with
  | none => rfl
  | some c =>
    rw [filter_unspent, Coin.unspent, hunspent o c hc]
    rfl

/-- One run of `ReplayBlocks` on a database between the two tips. -/
theorem TwoTips.replayBlocks_states (h : TwoTips env S hashOld new uOld uNew) {db : CCoinsViewDB}
    (hdb : MidWrite (env.entry new).hashBlock hashOld uOld uNew db) (order : HashOrder)
    (full : List BatchOp → Bool) :
    ∃ states, replayBlocks env order full db = .ok states ∧
      (∀ db' ∈ states, MidWrite (env.entry new).hashBlock hashOld uOld uNew db' ∨
        Recovered (env.entry new).hashBlock uNew db') ∧
      ∃ last, states.getLast? = some last ∧ Recovered (env.entry new).hashBlock uNew last := by
  obtain ⟨pindexOld, pindexFork, hfork, hrewrites⟩ := h.replayCache_rewrites
  have hunspent : ∀ o c, db.coins o = some c → c.isSpent = false := by
    intro o c hc
    rcases hdb.coins o with hold | hnew
    · exact h.old.unspent h.tree o c (hold ▸ hc)
    · exact (h.utxoNew.coins h.tree h.newMem h.height o c (hnew ▸ hc)).2
  have hdbUtxo := asView_utxo hunspent
  have hempty : Coherent ⟨db.asView, 0, ∅, 0⟩ := by
    refine ⟨?_, ?_, (tally_empty _).symm⟩
    · intro o entry hlookup
      cases hlookup
    · intro o entry hlookup
      cases hlookup
  have hstart : ∀ o, utxo ⟨db.asView, 0, ∅, 0⟩ o = uOld o ∨
      utxo ⟨db.asView, 0, ∅, 0⟩ o = uNew o := by
    intro o
    rw [utxo_of_notMem (AList.lookup_empty o), hdbUtxo]
    exact hdb.coins o
  obtain ⟨cache, hcache, hto⟩ := hrewrites.repairs hempty hstart
  have hold : db.oldTip (env.entry new).hashBlock = .ok hashOld := by
    simp only [CCoinsViewDB.oldTip, CCoinsViewDB.getBestBlock, CCoinsViewDB.getHeadBlocks,
      hdb.bestBlock, hdb.headBlocks, Option.getD_none, Option.getD_some, if_true]
    rw [assertThat_of trivial]
    rfl
  have hmarked : (cache.setBestBlock (env.entry new).hashBlock).Coherent :=
    ⟨hto.coherent.clean, hto.coherent.fresh, hto.coherent.usage⟩
  obtain ⟨states, hwrite, hstates⟩ := batchWrite_states hdb.coins hold h.hash
    hmarked (by rw [← hdbUtxo]; exact congrArg _ hto.base) hto.utxo order full
  refine ⟨states, ?_, hstates⟩
  simp only [replayBlocks, CCoinsViewDB.getHeadBlocks, hdb.headBlocks, Option.getD_some, h.indexed]
  rw [hfork, ok_bind]
  dsimp only
  rw [hcache, ok_bind]
  exact mapError_eq_ok.mpr hwrite

theorem Recovered.replayBlocks_nothing {hashNew : UInt256} {db : CCoinsViewDB}
    (h : Recovered hashNew uNew db) (order : HashOrder) (full : List BatchOp → Bool) :
    replayBlocks env order full db = .ok [] := by
  simp only [replayBlocks, CCoinsViewDB.getHeadBlocks, h.headBlocks, Option.getD_none]

/-- A run of `ReplayBlocks` that is interrupted after some batches of its flush. -/
structure CrashedReplay where
  order : HashOrder
  full : List BatchOp → Bool
  batches : Nat

/-- The database after an interrupted run. -/
def crashReplay (env : ReplayEnv) (db : CCoinsViewDB) (crash : CrashedReplay) : CCoinsViewDB :=
  match replayBlocks env crash.order crash.full db with
  | .ok states => ((states.take crash.batches).getLast?).getD db
  | .error _ => db

/-- Interrupted runs leave the database between the two tips, unless they were done. -/
theorem TwoTips.crashReplay_states (h : TwoTips env S hashOld new uOld uNew) {db : CCoinsViewDB}
    (hdb : MidWrite (env.entry new).hashBlock hashOld uOld uNew db ∨
      Recovered (env.entry new).hashBlock uNew db) (crash : CrashedReplay) :
    MidWrite (env.entry new).hashBlock hashOld uOld uNew (crashReplay env db crash) ∨
      Recovered (env.entry new).hashBlock uNew (crashReplay env db crash) := by
  unfold crashReplay
  rcases hdb with hmid | hdone
  · obtain ⟨states, hrun, hstates, -⟩ := h.replayBlocks_states hmid crash.order crash.full
    rw [hrun]
    dsimp only
    cases hlast : (states.take crash.batches).getLast? with
    | none => exact .inl hmid
    | some db' =>
      exact hstates db' (List.mem_of_mem_take (List.mem_of_getLast? hlast))
  · rw [hdone.replayBlocks_nothing]
    simpa using .inr hdone

/-- Crash recovery: on a database that is marked as lying between two tips and in which some of
the changes have been written, `ReplayBlocks` leaves the coins and the best block of the new tip,
however often it is itself interrupted between two batches and started again. -/
theorem replayBlocks_recovers (h : TwoTips env S hashOld new uOld uNew) {db : CCoinsViewDB}
    (hdb : MidWrite (env.entry new).hashBlock hashOld uOld uNew db) (crashes : List CrashedReplay)
    (order : HashOrder) (full : List BatchOp → Bool) :
    ∃ states, replayBlocks env order full (crashes.foldl (crashReplay env) db) = .ok states ∧
      Recovered (env.entry new).hashBlock uNew
        (states.getLast?.getD (crashes.foldl (crashReplay env) db)) := by
  have hafter : MidWrite (env.entry new).hashBlock hashOld uOld uNew
        (crashes.foldl (crashReplay env) db) ∨
      Recovered (env.entry new).hashBlock uNew (crashes.foldl (crashReplay env) db) :=
    List.foldlRecOn (motive := fun db => MidWrite (env.entry new).hashBlock hashOld uOld uNew db ∨
      Recovered (env.entry new).hashBlock uNew db) _ _ (.inl hdb)
      fun _ hdb crash _ => h.crashReplay_states hdb crash
  rcases hafter with hmid | hdone
  · obtain ⟨states, hrun, -, last, hlast, hrecovered⟩ := h.replayBlocks_states hmid order full
    refine ⟨states, hrun, ?_⟩
    rw [hlast]
    exact hrecovered
  · exact ⟨[], hdone.replayBlocks_nothing order full, hdone⟩

end Recovery

/-- Blocks on top of genesis, told apart by their coinbases. -/
def branchCoinbase (p : BlockPtr) : CTransaction :=
  { sampleCoinbase with vin := [⟨COutPoint.null, [1, UInt8.ofNat p], 0xffffffff, []⟩] }

def branchBlock (p : BlockPtr) : CBlock :=
  sampleBlock [branchCoinbase p]

def branchHash (p : BlockPtr) : UInt256 :=
  (branchBlock p).getHash sampleCrypto

/-- The genesis entry and two blocks on top of it. -/
def sampleReplay : ReplayEnv where
  crypto := sampleCrypto
  entry p := if p = 0 then dataEntry 77 none 0 0 else dataEntry (branchHash p) (some 0) 1 1
  blockIndex hash := if hash = 77 then some 0 else [1, 2].find? fun p => branchHash p = hash
  readBlockFromDisk p := if p = 0 then none else some (branchBlock p)
  undoReadFromDisk p := if p = 0 then none else some []

/-- The database is marked for the step from the first branch to the second. The coin of the
second is written, and the coin of the first is not yet erased. -/
def midDb (u₁ u₂ : UtxoSet) : CCoinsViewDB :=
  ⟨fun o => if o = ⟨(branchCoinbase 2).getHash sampleCrypto, 0⟩ then u₂ o else u₁ o, none,
    some [branchHash 2, branchHash 1]⟩

def connectBranch (p : BlockPtr) : Result Connected :=
  connectBlock sampleEnv (branchBlock p) (sampleIndex (branchBlock p) 1) (some samplePrev)
    (sampleView fun _ => none) [] false

theorem sampleReplay_tree : BlockTree sampleReplay.entry (· < 3) := by
  refine ⟨⟨?_, ?_, ?_⟩, ?_⟩
  · intro x hx hroot
    interval_cases x
    · rfl
    all_goals cases hroot
  · intro x y hx hparent
    interval_cases x <;> cases hparent <;> decide
  · intro x y hx hparent
    interval_cases x <;> cases hparent <;> rfl
  · intro x y hx hskip
    interval_cases x <;> cases hskip <;> exact ⟨.of_parent rfl, rfl⟩

theorem sampleReplay_utxo {p : BlockPtr} (hp : p ∈ [1, 2]) : ∃ u, UtxoAt sampleReplay p u := by
  have hp0 : p ≠ 0 := by
    rintro rfl
    exact absurd hp (by decide)
  have hconnects : ∀ p ∈ [1, 2], failure? (connectBranch p) = none := by decide +kernel
  have hundo : ∀ p ∈ [1, 2], (connectBranch p).toOption.map Connected.blockundo = some [] := by
    decide +kernel
  have hgenesis : ∀ p ∈ [1, 2],
      (branchBlock p).getHash sampleEnv.crypto ≠ sampleEnv.params.hashGenesisBlock := by
    decide +kernel
  obtain ⟨res, hres⟩ := failure?_eq_none.mp (hconnects p hp)
  have hempty := hundo p hp
  rw [hres] at hempty
  have hblockundo : res.blockundo = [] := Option.some_inj.mp hempty
  have hroot : UtxoAt sampleReplay 0 fun _ => none := .genesis rfl
  refine ⟨res.view.utxo, .connected ?_ hroot ⟨sampleEnv, branchBlock p, branchBlock p,
    sampleIndex (branchBlock p) 1, some samplePrev, sampleView fun _ => none, [], res, rfl,
    sampleBlock_fCheckedSound _, hgenesis p hp, ?_, sampleView_flagsSound _, rfl, hres, rfl,
    if_neg hp0, rfl, ?_⟩⟩
  · simp only [sampleReplay, if_neg hp0]
    rfl
  · simp only [sampleReplay, if_neg hp0]
    rfl
  · rw [hblockundo]
    exact if_neg hp0

/-- The first branch is rolled back and the second forward; the replay is interrupted after its
first batch and started again. -/
theorem sampleReplay_recovers :
    ∃ u₁ u₂, UtxoAt sampleReplay 1 u₁ ∧ UtxoAt sampleReplay 2 u₂ ∧ ∃ states,
      replayBlocks sampleReplay insertionOrder (fun _ => true)
        ([⟨insertionOrder, fun _ => true, 1⟩].foldl (crashReplay sampleReplay) (midDb u₁ u₂)) =
          .ok states ∧
      Recovered (sampleReplay.entry 2).hashBlock u₂
        (states.getLast?.getD
          ([⟨insertionOrder, fun _ => true, 1⟩].foldl (crashReplay sampleReplay)
            (midDb u₁ u₂))) := by
  obtain ⟨u₁, hu₁⟩ := sampleReplay_utxo (p := 1) (by decide)
  obtain ⟨u₂, hu₂⟩ := sampleReplay_utxo (p := 2) (by decide)
  have hold : OldTip sampleReplay (· < 3) (sampleReplay.entry 1).hashBlock u₁ :=
    .block (by decide) hu₁ (by decide +kernel) (by decide +kernel) (by decide)
  have htips : TwoTips sampleReplay (· < 3) (sampleReplay.entry 1).hashBlock 2 u₁ u₂ := by
    refine ⟨sampleReplay_tree, ?_, hold, by decide, hu₂, by decide +kernel, by decide +kernel,
      by decide⟩
    intro a b ha hb hroota hrootb
    interval_cases a
    · interval_cases b
      · rfl
      · cases hrootb
      · cases hrootb
    · cases hroota
    · cases hroota
  have hmid : MidWrite (sampleReplay.entry 2).hashBlock (sampleReplay.entry 1).hashBlock u₁ u₂
      (midDb u₁ u₂) := by
    refine ⟨fun o => ?_, rfl, rfl⟩
    unfold midDb
    dsimp only
    split
    · exact .inr rfl
    · exact .inl rfl
  exact ⟨u₁, u₂, hu₁, hu₂, replayBlocks_recovers htips hmid _ _ _⟩

end Verium
