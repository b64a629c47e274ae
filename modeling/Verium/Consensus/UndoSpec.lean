import Verium.Consensus.DisconnectBlock
import Verium.Consensus.SpendRules

/-!
`DisconnectBlock` takes back what `ConnectBlock` did. Undoing a transaction is a list of writes
that does not depend on the view: its outputs are removed and the coins of the undo data are put
back. On the ledger after the transaction the writes lead to the ledger before it, and none of
them is unclean.
-/

namespace Verium

open Lib Function CCoinsViewCache

/-- What the undo code can put back: a coin with a height, since zero is taken for missing
metadata, and with a script that `AddCoin` stores. -/
structure Coin.Restorable (c : Coin) : Prop where
  nHeight : c.nHeight ≠ 0
  spendable : isUnspendable c.out.scriptPubKey = false

section Writes

variable (crypto : Crypto)

/-- What undoing a transaction writes. -/
def undoWrites (nHeight : Nat) (undone : CTransaction × List Coin) :
    List (COutPoint × Option Coin) :=
  ((createdCoins crypto undone.1 nHeight).map fun e => (e.1, none)) ++
    (undone.1.vin.zip undone.2).reverse.map fun input => (input.1.prevout, some input.2)

variable {crypto : Crypto} {tx : CTransaction} {nHeight : Nat}

section Outputs

variable {writes writes' : List (COutPoint × Option Coin)} {Clean Clean' : UtxoSet → Prop}
  {step step' : Bool × CCoinsViewCache → Except DisconnectStop (Bool × CCoinsViewCache)}

/-- The step makes these writes on every view, and is clean on the ledgers with `Clean`. -/
def Undoes (writes : List (COutPoint × Option Coin)) (Clean : UtxoSet → Prop)
    (step : Bool × CCoinsViewCache → Except DisconnectStop (Bool × CCoinsViewCache)) : Prop :=
  ∀ (fClean : Bool) (view : CCoinsViewCache), view.FlagsSound →
    ∃ clean view', step (fClean, view) = .ok (clean, view') ∧
      view.WritesTo view' (writeAll view.utxo writes) ∧ (Clean view.utxo → clean = fClean)

theorem Undoes.nothing (Clean : UtxoSet → Prop) : Undoes [] Clean .ok :=
  fun fClean view hsound =>
    ⟨fClean, view, rfl, (ReadsTo.refl view).writesTo hsound, fun _ => rfl⟩

theorem Undoes.mono (h : Undoes writes Clean step) (hclean : ∀ u, Clean' u → Clean u) :
    Undoes writes Clean' step := by
  intro fClean view hsound
  obtain ⟨clean, view', hstep, hwrites, hdone⟩ := h fClean view hsound
  exact ⟨clean, view', hstep, hwrites, fun hu => hdone (hclean _ hu)⟩

theorem Undoes.bind (h : Undoes writes Clean step) (h' : Undoes writes' Clean' step') :
    Undoes (writes ++ writes') (fun u => Clean u ∧ Clean' (writeAll u writes))
      fun s => step s >>= step' := by
  intro fClean view hsound
  obtain ⟨clean, mid, hstep, hwrites, hclean⟩ := h fClean view hsound
  obtain ⟨clean', view', hstep', hwrites', hclean'⟩ := h' clean mid hwrites.flagsSound
  rw [hwrites.utxo] at hwrites' hclean'
  refine ⟨clean', view', ?_, ?_, ?_⟩
  · dsimp only
    rw [hstep, ok_bind, hstep']
  · rw [writeAll_append]
    exact hwrites.trans hwrites'
  · rintro ⟨hfirst, hsecond⟩
    exact (hclean' hsecond).trans (hclean hfirst)

/-- A loop is clean if each round is, and no round disturbs the later ones. -/
theorem Undoes.foldlM {α : Type} {l : List α} {write : α → List (COutPoint × Option Coin)}
    {Clean : α → UtxoSet → Prop}
    {f : Bool × CCoinsViewCache → α → Except DisconnectStop (Bool × CCoinsViewCache)}
    (h : ∀ a ∈ l, Undoes (write a) (Clean a) (f · a))
    (hapart : l.Pairwise fun a b => ∀ u, Clean b u → Clean b (writeAll u (write a))) :
    Undoes (l.flatMap write) (fun u => ∀ a ∈ l, Clean a u) fun s => l.foldlM f s := by
  induction l with
  | nil => exact .nothing _
  | cons a rest ih =>
    rw [List.forall_mem_cons] at h
    rw [List.pairwise_cons] at hapart
    simp only [List.foldlM_cons, List.flatMap_cons]
    refine (h.1.bind (ih h.2 hapart.2)).mono fun u hu => ?_
    rw [List.forall_mem_cons] at hu
    exact ⟨hu.1, fun b hb => hapart.1 b hb u (hu.2 b hb)⟩

/-- Undoing an output removes it, and is clean if it was there as the block has it. -/
theorem undoOutput_undoes (crypto : Crypto) (tx : CTransaction) (hheight : nHeight < 2 ^ 31)
    (output : CTxOut × Nat) :
    Undoes ((createdCoin crypto tx nHeight output).toList.map fun e => (e.1, none))
      (fun u => ∀ e ∈ createdCoin crypto tx nHeight output, u e.1 = some e.2)
      fun s => .ok (undoOutput crypto tx nHeight s output) := by
  obtain ⟨txout, o⟩ := output
  cases hcreated : createdCoin crypto tx nHeight (txout, o) with
  | none =>
    have hunspendable : isUnspendable txout.scriptPubKey = true := by
      simpa [createdCoin] using hcreated
    simp only [undoOutput, hunspendable, if_true]
    exact .nothing _
  | some e =>
    intro fClean view hsound
    obtain ⟨hspendable, hkey, hcoin⟩ := createdCoin_eq_some hcreated
    simp only [undoOutput, hspendable, Bool.false_eq_true, if_false, ← hkey]
    cases hspend : view.spendCoin e.1 with
    | none =>
      have hnone := utxo_of_spendCoin_none hspend
      refine ⟨false, view, rfl, ?_, ?_⟩
      · change view.WritesTo view (update view.utxo e.1 none)
        rw [← hnone, update_eq_self]
        exact (ReadsTo.refl view).writesTo hsound
      · intro hsome
        rw [hsome e rfl] at hnone
        cases hnone
    | some spent =>
      obtain ⟨coin, view'⟩ := spent
      obtain ⟨hat, hwrites⟩ := spendCoin_writesTo hsound hspend
      dsimp only
      split
      next hmismatch =>
        refine ⟨false, view', rfl, hwrites, ?_⟩
        intro hsome
        rw [(utxo_eq_some.mp (hsome e rfl)).1, Option.some_inj] at hat
        rw [← hat, hcoin] at hmismatch
        simp only [Coin.ofTxOut, Nat.mod_eq_of_lt hheight] at hmismatch
        simp at hmismatch
      next => exact ⟨fClean, view', rfl, hwrites, fun _ => rfl⟩

theorem undoOutputs_undoes (hheight : nHeight < 2 ^ 31) (hlength : tx.vout.length ≤ 2 ^ 32) :
    Undoes ((createdCoins crypto tx nHeight).map fun e => (e.1, none))
      (fun u => ∀ e ∈ createdCoins crypto tx nHeight, u e.1 = some e.2)
      fun s => .ok (undoOutputs crypto tx nHeight s) := by
  have hapart : tx.vout.zipIdx.Pairwise fun a b => ∀ u : UtxoSet,
      (∀ e ∈ createdCoin crypto tx nHeight b, u e.1 = some e.2) →
      ∀ e ∈ createdCoin crypto tx nHeight b, writeAll u
        ((createdCoin crypto tx nHeight a).toList.map fun e => (e.1, none)) e.1 = some e.2 := by
    refine (List.pairwise_map.mp (outPoints_nodup crypto hlength)).imp fun hne u hclean e he => ?_
    rw [writeAll_none, if_neg]
    · exact hclean e he
    · intro hmem
      obtain ⟨e', he', hkey⟩ := List.mem_map.mp hmem
      rw [(createdCoin_eq_some (Option.mem_toList.mp he')).2.1,
        (createdCoin_eq_some he).2.1] at hkey
      exact hne hkey
  have hloop := Undoes.foldlM (fun output _ => undoOutput_undoes crypto tx hheight output) hapart
  have hstep : ∀ s, tx.vout.zipIdx.foldlM
      (fun s output => .ok (undoOutput crypto tx nHeight s output)) s =
        Except.ok (ε := DisconnectStop) (undoOutputs crypto tx nHeight s) :=
    fun _ => List.foldlM_pure
  simp only [hstep] at hloop
  rw [createdCoins, List.filterMap_eq_flatMap_toList, List.map_flatMap]
  refine hloop.mono fun u hu output houtput e he => hu e ?_
  exact List.mem_flatMap.mpr ⟨output, houtput, Option.mem_toList.mpr he⟩

end Outputs

section Inputs

/-- A lookup tells whether the coin is there, so that adding it with this flag for overwriting
does not throw. -/
theorem haveCoin_addCoin {view : CCoinsViewCache} (hsound : view.FlagsSound)
    (out : COutPoint) {coin : Coin}
    (hunspent : coin.isSpent = false) (hspendable : isUnspendable coin.out.scriptPubKey = false) :
    ∃ view', (view.haveCoin out).2.addCoin out coin (view.haveCoin out).1 = .ok view' ∧
      view.WritesTo view' (update view.utxo out (some coin)) := by
  have hread := view.haveCoin_readsTo out
  have hfound := view.haveCoin_fst out
  have hcovers : (view.haveCoin out).2.Covers fun o => o = out ∨ False :=
    haveCoin_covers out (fun _ h => h.elim)
  generalize view.haveCoin out = looked at hread hfound hcovers ⊢
  obtain ⟨found, read⟩ := looked
  dsimp only at hread hfound hcovers ⊢
  have hspent : found = false → (read.emplacedEntry out).coin.isSpent = true := by
    intro hnot
    rw [emplacedEntry_isSpent hcovers (.inl rfl), hread.utxo]
    rw [hnot] at hfound
    exact Option.isNone_iff_eq_none.mp (Option.isSome_eq_false_iff.mp hfound.symm)
  have hwrites := storeCoin_writesTo (c := coin) (hread.flagsSound hsound) hcovers
    (.inl rfl) hunspent hspent
  rw [hread.utxo] at hwrites
  refine ⟨read.storeCoin out coin found, ?_, (hread.writesTo hsound).trans hwrites⟩
  rw [addCoin_spendable hunspent hspendable, if_neg]
  rintro ⟨hnot, hbad⟩
  rw [hspent hnot] at hbad
  cases hbad

theorem undoInput_undoes (txin : CTxIn) {undo : Coin} (hundo : undo.Restorable)
    (hunspent : undo.isSpent = false) :
    Undoes [(txin.prevout, some undo)] (fun u => u txin.prevout = none)
      (undoInput · (txin, undo)) := by
  intro fClean view hsound
  obtain ⟨view', hadd, hwrites⟩ := haveCoin_addCoin hsound txin.prevout hunspent hundo.spendable
  refine ⟨fClean && !(view.haveCoin txin.prevout).1, view', ?_, hwrites, ?_⟩
  · simp only [undoInput, applyTxInUndo, undoCoin, if_neg hundo.nHeight, ok_bind, hadd]
    rfl
  · intro hnone
    rw [view.haveCoin_fst, hnone]
    exact Bool.and_true fClean

theorem undoInputs_undoes {txundo : List Coin} (hsize : txundo.length = tx.vin.length)
    (hdistinct : (tx.vin.map CTxIn.prevout).Nodup)
    (hundo : ∀ coin ∈ txundo, coin.Restorable ∧ coin.isSpent = false) :
    Undoes ((tx.vin.zip txundo).reverse.map fun input => (input.1.prevout, some input.2))
      (fun u => ∀ txin ∈ tx.vin, u txin.prevout = none) (undoInputs tx txundo) := by
  have hmem : ∀ input ∈ (tx.vin.zip txundo).reverse, input.1 ∈ tx.vin ∧ input.2 ∈ txundo :=
    fun input hinput => List.of_mem_zip (List.mem_reverse.mp hinput)
  have hapart : (tx.vin.zip txundo).reverse.Pairwise fun a b => ∀ u : UtxoSet,
      u b.1.prevout = none → writeAll u [(a.1.prevout, some a.2)] b.1.prevout = none := by
    have hzip : (tx.vin.zip txundo).map Prod.fst = tx.vin := List.map_fst_zip hsize.ge
    rw [← hzip, List.map_map] at hdistinct
    refine (List.pairwise_map.mp hdistinct).reverse.imp fun hne u hnone => ?_
    exact (update_of_ne hne _ _).trans hnone
  have hloop := Undoes.foldlM (fun input hinput =>
    undoInput_undoes input.1 (hundo _ (hmem input hinput).2).1 (hundo _ (hmem input hinput).2).2)
    hapart
  have hstep : undoInputs tx txundo = fun s => (tx.vin.zip txundo).reverse.foldlM undoInput s := by
    funext s
    rw [undoInputs, rejectIf_of_not (not_not.mpr hsize), ok_bind]
  rw [hstep, List.map_eq_flatMap]
  exact hloop.mono fun u hu input hinput => hu _ (hmem input hinput).1

end Inputs

section Transactions

variable {view : CCoinsViewCache} {txundo : List Coin} {utxo : UtxoSet}

theorem UndoOf.exists_input {vin : List CTxIn} {coin : Coin} (h : UndoOf utxo vin txundo)
    (hcoin : coin ∈ txundo) : ∃ txin ∈ vin, utxo txin.prevout = some coin := by
  induction h with
  | nil => cases hcoin
  | @cons txin c _ _ hc _ ih =>
    rcases List.mem_cons.mp hcoin with rfl | hcoin
    · exact ⟨txin, List.mem_cons_self, hc⟩
    · obtain ⟨other, hmem, hother⟩ := ih hcoin
      exact ⟨other, List.mem_cons_of_mem _ hmem, hother⟩

theorem undoTx_undoes (crypto : Crypto) (hheight : nHeight < 2 ^ 31)
    (hchecked : CheckedTx tx) (hsize : txundo.length = tx.vin.length)
    (hundo : ∀ coin ∈ txundo, coin.Restorable ∧ coin.isSpent = false) :
    Undoes (undoWrites crypto nHeight (tx, txundo)) (fun u =>
      (∀ e ∈ createdCoins crypto tx nHeight, u e.1 = some e.2) ∧
      ∀ txin ∈ tx.vin, txin.prevout ∈ (createdCoins crypto tx nHeight).map Prod.fst ∨
        u txin.prevout = none) (undoTx crypto nHeight · (tx, txundo)) := by
  refine ((undoOutputs_undoes hheight hchecked.vout_length).bind
    (undoInputs_undoes hsize hchecked.distinct hundo)).mono fun u hu => ⟨hu.1, ?_⟩
  intro txin htxin
  rw [writeAll_none, ite_eq_left_iff]
  exact (hu.2 txin htxin).resolve_left

theorem writeAll_created (hfresh : CreatesFresh crypto nHeight utxo tx) :
    writeAll (applyTx crypto nHeight utxo tx)
      ((createdCoins crypto tx nHeight).map fun e => (e.1, none)) = spendTx utxo tx := by
  funext o
  rw [writeAll_none]
  split
  next hcreated =>
    obtain ⟨e, he, rfl⟩ := List.mem_map.mp hcreated
    exact (hfresh e he).symm
  next hcreated => exact insertAll_of_notMem hcreated

/-- On the ledger after a transaction its undo writes lead back to the ledger before it. -/
theorem writeAll_undoWrites (hspend : tx.isCoinBase = false)
    (hfresh : CreatesFresh crypto nHeight utxo tx) (hundo : UndoOf utxo tx.vin txundo) :
    writeAll (applyTx crypto nHeight utxo tx) (undoWrites crypto nHeight (tx, txundo)) = utxo := by
  obtain ⟨hsize, hcoins⟩ := List.forall₂_iff_zip.mp hundo
  have hspent : spendTx utxo tx = eraseAll utxo (tx.vin.map CTxIn.prevout) := by
    rw [spendTx, spentOutPoints, hspend]
    rfl
  rw [undoWrites, writeAll_append, writeAll_created hfresh, hspent]
  funext o
  by_cases hin : o ∈ tx.vin.map CTxIn.prevout
  · -- the coin is put back whatever was written before
    obtain ⟨txin, htxin, rfl⟩ := List.mem_map.mp hin
    refine writeAll_of_forall ?_ (.inl ?_)
    · intro w hw hkey
      obtain ⟨⟨other, coin⟩, hmem, rfl⟩ := List.mem_map.mp hw
      rw [← hkey]
      exact (hcoins (List.mem_reverse.mp hmem)).symm
    · obtain ⟨i, hi, rfl⟩ := List.mem_iff_getElem.mp htxin
      refine List.mem_map.mpr ⟨_, List.mem_map_of_mem (List.mem_reverse.mpr
        (List.getElem_mem (n := i) (l := tx.vin.zip txundo) ?_)), ?_⟩
      · rw [List.length_zip]
        omega
      · simp
  · rw [writeAll_of_notMem, eraseAll_apply, if_neg hin]
    intro hmem
    obtain ⟨w, hw, rfl⟩ := List.mem_map.mp hmem
    obtain ⟨input, hinput, rfl⟩ := List.mem_map.mp hw
    exact hin (List.mem_map_of_mem (List.of_mem_zip (List.mem_reverse.mp hinput)).1)

/-- The undo data `us` of the transactions `txs`, applied one after the other to the ledger. -/
def UndoRecords (crypto : Crypto) (nHeight : Nat) :
    UtxoSet → List CTransaction → List (List Coin) → Prop
  | _, [], [] => True
  | utxo, tx :: txs, txundo :: vtxundo =>
      CheckedTx tx ∧ tx.isCoinBase = false ∧ CreatesFresh crypto nHeight utxo tx ∧
        UndoOf utxo tx.vin txundo ∧ (∀ coin ∈ txundo, coin.isSpent = false) ∧
        UndoRecords crypto nHeight (applyTx crypto nHeight utxo tx) txs vtxundo
  | _, _, _ => False

theorem UndoRecords.length {txs : List CTransaction} {vtxundo : List (List Coin)}
    (h : UndoRecords crypto nHeight utxo txs vtxundo) : vtxundo.length = txs.length := by
  induction txs generalizing utxo vtxundo with
  | nil =>
    cases vtxundo with
    | nil => rfl
    | cons txundo vtxundo => exact h.elim
  | cons tx txs ih =>
    cases vtxundo with
    | nil => exact h.elim
    | cons txundo vtxundo => simp [ih h.2.2.2.2.2]

theorem restorable_of_created {e : COutPoint × Coin} (hpos : 0 < nHeight)
    (hheight : nHeight < 2 ^ 31) (he : e ∈ createdCoins crypto tx nHeight) : e.2.Restorable := by
  obtain ⟨output, -, hcreated⟩ := List.mem_filterMap.mp he
  obtain ⟨hspendable, -, hcoin⟩ := createdCoin_eq_some hcreated
  rw [hcoin]
  refine ⟨?_, hspendable⟩
  change nHeight % 2 ^ 31 ≠ 0
  rw [Nat.mod_eq_of_lt hheight]
  exact hpos.ne'

/-- Undo data can be restored if it comes from coins that can, or from the block itself. -/
theorem UndoRecords.restorable {txs : List CTransaction} {vtxundo : List (List Coin)}
    (hpos : 0 < nHeight) (hheight : nHeight < 2 ^ 31)
    (h : UndoRecords crypto nHeight utxo txs vtxundo)
    (hutxo : ∀ tx ∈ txs, ∀ o ∈ spentOutPoints tx, ∀ c, utxo o = some c → c.Restorable) :
    ∀ txundo ∈ vtxundo, ∀ coin ∈ txundo, coin.Restorable := by
  induction txs generalizing utxo vtxundo with
  | nil =>
    cases vtxundo with
    | nil => simp
    | cons txundo vtxundo => exact h.elim
  | cons tx txs ih =>
    cases vtxundo with
    | nil => exact h.elim
    | cons txundo vtxundo =>
      obtain ⟨-, hspend, -, hundo, -, hrest⟩ := h
      rw [List.forall_mem_cons] at hutxo ⊢
      constructor
      · intro coin hcoin
        obtain ⟨txin, hmem, hfound⟩ := hundo.exists_input hcoin
        refine hutxo.1 txin.prevout ?_ coin hfound
        rw [spentOutPoints, hspend]
        exact List.mem_map_of_mem hmem
      · refine ih hrest fun tx' htx' o ho c hc => ?_
        rcases insertAll_eq_some hc with hold | hnew
        · exact hutxo.2 tx' htx' o ho c (eraseAll_eq_some hold)
        · exact restorable_of_created hpos hheight hnew

/-- Undoing transactions from the last to the first makes the same writes on every view. On the
ledger after the transactions they lead to the ledger before them, and are clean. -/
theorem foldlM_undoTx {txs : List CTransaction} {vtxundo : List (List Coin)}
    (hheight : nHeight < 2 ^ 31) (h : UndoRecords crypto nHeight utxo txs vtxundo)
    (hcoins : ∀ txundo ∈ vtxundo, ∀ coin ∈ txundo, coin.Restorable) :
    ∃ writes, writeAll (applyTxs crypto nHeight utxo txs) writes = utxo ∧
      Undoes writes (· = applyTxs crypto nHeight utxo txs)
        fun s => (txs.zip vtxundo).reverse.foldlM (undoTx crypto nHeight) s := by
  induction txs generalizing utxo vtxundo with
  | nil => exact ⟨[], rfl, .nothing _⟩
  | cons tx txs ih =>
    cases vtxundo with
    | nil => exact h.elim
    | cons txundo vtxundo =>
      obtain ⟨hchecked, hspend, hfresh, hundo, hunspent, hrest⟩ := h
      rw [List.forall_mem_cons] at hcoins
      obtain ⟨writes, hback, hrun⟩ := ih hrest hcoins.2
      have hlast := undoTx_undoes crypto hheight hchecked hundo.length_eq.symm
        fun coin hcoin => ⟨hcoins.1 coin hcoin, hunspent coin hcoin⟩
      refine ⟨writes ++ undoWrites crypto nHeight (tx, txundo), ?_, ?_⟩
      · rw [writeAll_append]
        exact (congrArg (writeAll · _) hback).trans (writeAll_undoWrites hspend hfresh hundo)
      · simp only [List.zip_cons_cons, List.reverse_cons, List.foldlM_append, List.foldlM_cons,
          List.foldlM_nil, bind_pure]
        refine (hrun.bind hlast).mono ?_
        rintro u rfl
        have hafter : writeAll (applyTxs crypto nHeight utxo (tx :: txs)) writes =
            applyTx crypto nHeight utxo tx := hback
        rw [hafter]
        refine ⟨rfl, fun e he => insertAll_of_mem (createdCoins_keys_nodup hchecked.vout_length) he,
          fun txin htxin => or_iff_not_imp_left.mpr fun hcreated => ?_⟩
        rw [applyTx, insertAll_of_notMem hcreated, spendTx, eraseAll_apply, if_pos]
        rw [spentOutPoints, hspend]
        exact List.mem_map_of_mem htxin

end Transactions

end Writes

section Recording

variable {env : ConnectEnv} {nHeight : Nat} {fJustCheck : Bool} {s t : ConnectState}
  {tx : CTransaction} {block : CBlock} {view view' : CCoinsViewCache}

theorem updateCoins_undoOf {crypto : Crypto} {undo : List Coin} (hsound : view.FlagsSound)
    (hspend : tx.isCoinBase = false) (havail : Available view.utxo tx.vin)
    (hdistinct : (tx.vin.map CTxIn.prevout).Nodup)
    (h : updateCoins crypto tx view nHeight = .ok (undo, view')) :
    UndoOf view.utxo tx.vin undo := by
  obtain ⟨⟨spentCoins, spent⟩, hspent, h⟩ := bind_eq_ok.mp h
  obtain ⟨added, -, h⟩ := bind_eq_ok.mp h
  cases h
  rw [spendInputs, hspend] at hspent
  obtain ⟨coins, _, hloop, hcoins⟩ := foldlM_spendInput_available [] hsound havail hdistinct
  cases hloop.symm.trans hspent
  exact hcoins

/-- The loop over the transactions after the first records their undo data. -/
theorem LoopInv.undoRecords {done txs : List CTransaction}
    (hinv : LoopInv env nHeight block view done s) (hi : s.i ≠ 0)
    (hchecked : ∀ tx ∈ txs, CheckedTx tx ∧ tx ∈ block.vtx ∧ tx.isCoinBase = false)
    (h : txs.foldlM (connectTx env nHeight fJustCheck) s = .ok t) :
    ∃ vtxundo, t.vtxundo = s.vtxundo ++ vtxundo ∧
      UndoRecords env.crypto nHeight s.view.utxo txs vtxundo := by
  induction txs generalizing s done with
  | nil =>
    rw [foldlM_nil_eq_ok] at h
    cases h
    exact ⟨[], (List.append_nil _).symm, trivial⟩
  | cons tx rest ih =>
    rw [List.forall_mem_cons] at hchecked
    obtain ⟨htx, hmem, hspend⟩ := hchecked.1
    obtain ⟨u, hstep, hloop⟩ := foldlM_cons_eq_ok.mp h
    obtain ⟨hinv', hfresh⟩ := hinv.step htx hmem hstep
    obtain ⟨s', txundo, hadmitted, hupdate, hu⟩ := connectTx_ok hstep
    have hread := hadmitted.reads
    have havail := hadmitted.available hspend
    have hundo := updateCoins_undoOf (hread.flagsSound hinv.flagsSound) hspend
      (by rwa [hread.utxo]) htx.distinct hupdate
    have hwrites := (updateCoins_writesTo (hinv.canUpdate htx hmem hread) hupdate).1
    rw [hread.utxo] at hundo hwrites
    obtain ⟨vtxundo, hrest, hrecords⟩ := ih hinv' (by rw [hu]; exact Nat.succ_ne_zero _)
      hchecked.2 hloop
    refine ⟨txundo :: vtxundo, ?_, htx, hspend, ?_, hundo, ?_, ?_⟩
    · rw [hrest, hu, if_neg hi, List.append_assoc]
      rfl
    · rw [hspend] at hfresh
      exact hfresh.resolve_left Bool.false_ne_true
    · intro coin hcoin
      obtain ⟨txin, -, hfound⟩ := hundo.exists_input hcoin
      exact (utxo_eq_some.mp hfound).2
    · rw [← hwrites.utxo]
      exact hrecords

/-- The block's transactions can be applied to the ledger `utxo`, with this undo data. -/
structure BlockUndo (crypto : Crypto) (nHeight : Nat) (utxo : UtxoSet) (vtx : List CTransaction)
    (vtxundo : List (List Coin)) : Prop where
  exists_records : ∃ coinbase rest, vtx = coinbase :: rest ∧ CheckedTx coinbase ∧
    coinbase.isCoinBase = true ∧ CreatesFresh crypto nHeight utxo coinbase ∧
    UndoRecords crypto nHeight (applyTx crypto nHeight utxo coinbase) rest vtxundo

/-- What a block has done to the view when it is connected. -/
structure ConnectedTo (crypto : Crypto) (pindex : CBlockIndex) (vtx : List CTransaction)
    (view : CCoinsViewCache) (res : Connected) : Prop where
  undo : BlockUndo crypto pindex.nHeight view.utxo vtx res.blockundo
  utxo : res.view.utxo = applyTxs crypto pindex.nHeight view.utxo vtx
  base : res.view.base = view.base
  hashBlock : res.view.hashBlock = pindex.hashBlock
  flagsSound : res.view.FlagsSound

theorem connectBlock_connectedTo {pindex : CBlockIndex} {pprev : Option CBlockIndex}
    {cache : List UInt256} {res : Connected} (hflag : FCheckedSound block)
    (hgenesis : block.getHash env.crypto ≠ env.params.hashGenesisBlock) (hsound : view.FlagsSound)
    (h : connectBlock env block pindex pprev view cache false = .ok res) :
    ConnectedTo env.crypto pindex block.vtx view res := by
  obtain ⟨hchecked, prev, s, fChecked, -, -, -, hloop, hfinish⟩ := connectBlock_ok hflag hgenesis h
  obtain ⟨hview, hblockundo⟩ := finishBlock_view hfinish
  have hinv := connectTxs_inv hchecked.checked hsound (fun _ hmem => hmem) hloop
  refine ⟨?_, ?_, ?_, ?_, ?_⟩
  · obtain ⟨coinbase, rest, hvtx, hcb, hrest⟩ := hchecked.coinbase
    have hmem : coinbase ∈ block.vtx := hvtx ▸ List.mem_cons_self
    have hmemRest : ∀ tx ∈ rest, tx ∈ block.vtx := fun tx htx => hvtx ▸ List.mem_cons_of_mem _ htx
    have hbip30 := connectTxs_bip30 hloop
    -- the first round of the loop handles the coinbase and records nothing
    rw [hvtx, ← List.singleton_append] at hloop
    obtain ⟨mid, hfirst, hothers⟩ := connectTxs_append.mp hloop
    have hmid : LoopInv env pindex.nHeight block view [coinbase] mid :=
      connectTxs_inv hchecked.checked hsound (by simpa using hmem) hfirst
    obtain ⟨read, -, hfirst⟩ := connectTxs_eq_ok.mp hfirst
    obtain ⟨u, hstep, hnil⟩ := foldlM_cons_eq_ok.mp hfirst
    rw [foldlM_nil_eq_ok] at hnil
    cases hnil
    obtain ⟨s', txundo, -, -, hfirst⟩ := connectTx_ok hstep
    obtain ⟨vtxundo, hrecorded, hrecords⟩ := hmid.undoRecords
      (by rw [hfirst]; exact Nat.succ_ne_zero _)
      (fun tx htx => ⟨hchecked.checked tx (hmemRest tx htx), hmemRest tx htx, hrest tx htx⟩) hothers
    have hempty : mid.vtxundo = [] := by
      rw [hfirst]
      rfl
    rw [hempty, List.nil_append] at hrecorded
    rw [hmid.utxo] at hrecords
    refine ⟨coinbase, rest, hvtx, hchecked.checked coinbase hmem, hcb,
      createsFresh_coinbase hmem hcb hbip30, ?_⟩
    rw [hblockundo, hrecorded]
    exact hrecords
  · rw [hview]
    exact hinv.utxo
  · rw [hview]
    exact hinv.base
  · rw [hview]
    rfl
  · rw [hview]
    exact hinv.flagsSound

end Recording

section Disconnecting

variable {crypto : Crypto} {nHeight : Nat} {utxo : UtxoSet} {vtx : List CTransaction}
  {vtxundo : List (List Coin)}

theorem BlockUndo.restorable (hpos : 0 < nHeight) (hheight : nHeight < 2 ^ 31)
    (h : BlockUndo crypto nHeight utxo vtx vtxundo)
    (hutxo : ∀ tx ∈ vtx, ∀ o ∈ spentOutPoints tx, ∀ c, utxo o = some c → c.Restorable) :
    ∀ txundo ∈ vtxundo, ∀ coin ∈ txundo, coin.Restorable := by
  obtain ⟨coinbase, rest, rfl, -, -, -, hrecords⟩ := h
  rw [List.forall_mem_cons] at hutxo
  refine hrecords.restorable hpos hheight fun tx htx o ho c hc => ?_
  rcases insertAll_eq_some hc with hold | hnew
  · exact hutxo.2 tx htx o ho c (eraseAll_eq_some hold)
  · exact restorable_of_created hpos hheight hnew

/-- Undoing a whole block makes the same writes on every view, and on the ledger after the block
they lead back to the ledger before it. -/
theorem undoTxs_writes (hpos : 0 < nHeight) (hheight : nHeight < 2 ^ 31)
    (h : BlockUndo crypto nHeight utxo vtx vtxundo)
    (hutxo : ∀ tx ∈ vtx, ∀ o ∈ spentOutPoints tx, ∀ c, utxo o = some c → c.Restorable) :
    ∃ writes, writeAll (applyTxs crypto nHeight utxo vtx) writes = utxo ∧
      ∀ view : CCoinsViewCache, view.FlagsSound →
        ∃ clean view', undoTxs crypto nHeight view vtx vtxundo = .ok (clean, view') ∧
          view.WritesTo view' (writeAll view.utxo writes) ∧
          (view.utxo = applyTxs crypto nHeight utxo vtx → clean = true) := by
  have hcoins := h.restorable hpos hheight hutxo
  obtain ⟨coinbase, rest, rfl, hchecked, hcb, hfresh, hrecords⟩ := h
  obtain ⟨writes, hback, hrun⟩ := foldlM_undoTx hheight hrecords hcoins
  refine ⟨writes ++ (createdCoins crypto coinbase nHeight).map fun e => (e.1, none), ?_, ?_⟩
  · rw [writeAll_append]
    exact (congrArg (writeAll · _) hback).trans
      ((writeAll_created hfresh).trans (spendTx_coinbase hcb))
  intro view hsound
  obtain ⟨clean, view', hdone, hwrites, hclean⟩ :=
    hrun.bind (undoOutputs_undoes hheight hchecked.vout_length) true view hsound
  refine ⟨clean, view', ?_, hwrites, ?_⟩
  · simp only [undoTxs]
    rw [rejectIf_of_not (by rw [hrecords.length]; simp), ok_bind]
    exact hdone
  · intro hview
    refine hclean ⟨hview, fun e he => ?_⟩
    rw [hview]
    exact (congrFun hback e.1).trans
      (insertAll_of_mem (createdCoins_keys_nodup hchecked.vout_length) he)

end Disconnecting

/-- `DisconnectBlock` takes back what `ConnectBlock` did: with the undo data it wrote the result
is clean, and the view has the unspent coins and the best block it had before. The coins that
the block spends have to be such that the undo code can put them back. -/
theorem disconnectBlock_connectBlock {env : ConnectEnv} {block : CBlock} {pindex : CBlockIndex}
    {pprev : Option CBlockIndex} {view : CCoinsViewCache} {cache : List UInt256} {res : Connected}
    (hflag : FCheckedSound block)
    (hgenesis : block.getHash env.crypto ≠ env.params.hashGenesisBlock)
    (hheight : 0 < pindex.nHeight ∧ pindex.nHeight < 2 ^ 31) (hsound : view.FlagsSound)
    (hcoins : ∀ tx ∈ block.vtx, ∀ o ∈ spentOutPoints tx, ∀ c, view.utxo o = some c → c.Restorable)
    (h : connectBlock env block pindex pprev view cache false = .ok res) :
    ∃ view', disconnectBlock env.crypto block pindex pprev (some res.blockundo) res.view =
        .ok (.ok view') ∧
      view'.utxo = view.utxo ∧ view'.getBestBlock = view.getBestBlock := by
  have hconnected := connectBlock_connectedTo hflag hgenesis hsound h
  obtain ⟨-, prev, s, -, rfl, hbest, -⟩ := connectBlock_ok hflag hgenesis h
  obtain ⟨writes, hback, hrun⟩ := undoTxs_writes hheight.1 hheight.2 hconnected.undo hcoins
  obtain ⟨clean, view', hundo, hwrites, hclean⟩ := hrun res.view hconnected.flagsSound
  rw [hconnected.utxo, hback] at hwrites
  refine ⟨view'.setBestBlock prev.hashBlock, ?_, hwrites.utxo, ?_⟩
  · simp only [disconnectBlock, hundo, hclean hconnected.utxo]
    rfl
  · change (if prev.hashBlock = 0 then view'.base.getBestBlock else prev.hashBlock) = _
    rw [hwrites.base, hconnected.base, ← hbest]
    unfold getBestBlock
    split
    next => rw [ite_self]
    next => rfl

/-- The coin of ten coins that `youngSpend` spends, without its height, and another output of
the same transaction. -/
def heightlessCoins : UtxoSet := fun o =>
  if o = ⟨5, 0⟩ then some ⟨⟨1000000000, [Opcode.op1]⟩, false, 0⟩
  else if o = ⟨5, 1⟩ then some ⟨⟨7, [Opcode.op1]⟩, false, 9⟩ else none

def connectYoung (coins : UtxoSet) : Result Connected :=
  connectBlock sampleEnv youngBlock (sampleIndex youngBlock 10) (some samplePrev)
    (sampleView coins) [] false

/-- The height of the coin at the outpoint `⟨5, 0⟩` after the block is connected to the coins and
disconnected again. -/
def restoredHeight (coins : UtxoSet) : Option Nat :=
  match connectYoung coins with
  | .error _ => none
  | .ok res =>
      match disconnectBlock sampleCrypto youngBlock (sampleIndex youngBlock 10) (some samplePrev)
          (some res.blockundo) res.view with
      | .ok (.ok view) => (view.utxo ⟨5, 0⟩).map Coin.nHeight
      | _ => none

/-- A coin of height zero comes back with the height of another output. -/
theorem heightless_coin_not_restored :
    (sampleView heightlessCoins).utxo ⟨5, 0⟩ = some ⟨⟨1000000000, [Opcode.op1]⟩, false, 0⟩ ∧
      restoredHeight heightlessCoins = some 9 :=
  ⟨rfl, by decide +kernel⟩

theorem youngBlock_disconnects :
    ∃ res, connectYoung youngCoins = .ok res ∧
      ∃ view, disconnectBlock sampleCrypto youngBlock (sampleIndex youngBlock 10) (some samplePrev)
          (some res.blockundo) res.view = .ok (.ok view) ∧
        view.utxo = (sampleView youngCoins).utxo ∧ view.getBestBlock = 77 := by
  have hconnects : ∃ res, connectYoung youngCoins = .ok res :=
    failure?_eq_none.mp (by decide +kernel)
  have hgenesis : youngBlock.getHash sampleEnv.crypto ≠ sampleEnv.params.hashGenesisBlock := by
    decide +kernel
  obtain ⟨res, hres⟩ := hconnects
  refine ⟨res, hres, ?_⟩
  refine disconnectBlock_connectBlock (sampleBlock_fCheckedSound _) hgenesis (by decide)
    (sampleView_flagsSound _) ?_ hres
  intro tx _ o _ c hc
  have hcoin := (utxo_eq_some.mp hc).1
  change youngCoins o = some c at hcoin
  unfold youngCoins at hcoin
  split at hcoin
  · cases hcoin
    exact ⟨by decide, by decide⟩
  · cases hcoin

end Verium
