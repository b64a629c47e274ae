import Verium.Chain.ReplaySpec

/-!
The coins while the tip moves. `ConnectTip` and `DisconnectTip` take blocks on and off the active
chain in any order, and caches are flushed in between. The undo data of a block is written when it
is connected for the first time, and serves whenever it is disconnected. So the coins are a
function of the active chain, whatever branches the node has tried before.
-/

namespace Verium

open Lib

/-- A block of the active chain, as it is on disk. -/
structure ActiveBlock where
  block : CBlock
  nHeight : Nat
deriving DecidableEq

/-- The active chain since the start, its tip first, and the coins at the tip. A chain stands for
the entry of its tip, so the undo data on disk is given for it. -/
structure CoinsTip where
  chain : List ActiveBlock
  view : CCoinsViewCache
  undo : List ActiveBlock → Option (List (List Coin))

/-- `WriteUndoDataForBlock`: undo data that is on disk stays there. -/
def CoinsTip.writeUndoDataForBlock (s : CoinsTip) (b : ActiveBlock) (blockundo : List (List Coin))
    (chain : List ActiveBlock) : Option (List (List Coin)) :=
  if chain = b :: s.chain then (s.undo chain).or (some blockundo) else s.undo chain

/-- The ledger after the blocks of a chain. -/
def ledgerAfter (crypto : Crypto) (start : UtxoSet) (chain : List ActiveBlock) : UtxoSet :=
  chain.foldr (fun b utxo => applyTxs crypto b.nHeight utxo b.block.vtx) start

/-- The undo data takes the ledger after the chain to the ledger before its tip. -/
def UndoesTip (crypto : Crypto) (start : UtxoSet) (vtxundo : List (List Coin)) :
    List ActiveBlock → Prop
  | [] => False
  | b :: chain => (0 < b.nHeight ∧ b.nHeight < 2 ^ 31) ∧
      BlockUndo crypto b.nHeight (ledgerAfter crypto start chain) b.block.vtx vtxundo

/-- The coins are those of the chain, and there is undo data for each of its blocks. -/
structure CoinsTip.Follows (crypto : Crypto) (start : UtxoSet) (s : CoinsTip) : Prop where
  sound : s.view.FlagsSound
  utxo : s.view.utxo = ledgerAfter crypto start s.chain
  undoes : ∀ chain vtxundo, s.undo chain = some vtxundo → UndoesTip crypto start vtxundo chain
  written : ∀ chain, chain <:+ s.chain → chain ≠ [] → s.undo chain ≠ none

variable {crypto : Crypto} {start : UtxoSet} {b : ActiveBlock} {chain : List ActiveBlock}
  {s s' : CoinsTip}

theorem CoinsTip.Follows.exists_undo (h : s.Follows crypto start)
    (hsuffix : b :: chain <:+ s.chain) : ∃ vtxundo, s.undo (b :: chain) = some vtxundo ∧
      UndoesTip crypto start vtxundo (b :: chain) := by
  obtain ⟨vtxundo, hundo⟩ := Option.ne_none_iff_exists'.mp (h.written _ hsuffix (by simp))
  exact ⟨vtxundo, hundo, h.undoes _ _ hundo⟩

theorem CoinsTip.Follows.restorable (hstart : ∀ o c, start o = some c → c.Restorable)
    (h : s.Follows crypto start) (hchain : chain <:+ s.chain) (o : COutPoint) (c : Coin)
    (hc : ledgerAfter crypto start chain o = some c) : c.Restorable := by
  induction chain with
  | nil => exact hstart o c hc
  | cons b chain ih =>
    obtain ⟨vtxundo, -, ⟨hpos, hlt⟩, -⟩ := h.exists_undo hchain
    rcases applyTxs_eq_some hc with hold | ⟨tx, -, hcreated⟩
    · exact ih ((List.suffix_cons b chain).trans hchain) hold
    · exact restorable_of_created hpos hlt hcreated

theorem CoinsTip.Follows.disconnect (hstart : ∀ o c, start o = some c → c.Restorable)
    (h : s.Follows crypto start) (hchain : s.chain = b :: chain) {pindex : CBlockIndex}
    (hheight : pindex.nHeight = b.nHeight) (prev : CBlockIndex) :
    ∃ view, disconnectBlock crypto b.block pindex (some prev) (s.undo s.chain) s.view =
        .ok (.ok view) ∧ view.FlagsSound ∧ view.utxo = ledgerAfter crypto start chain := by
  have hsuffix : b :: chain <:+ s.chain := hchain ▸ List.suffix_rfl
  obtain ⟨vtxundo, hundo, ⟨hpos, hlt⟩, hblock⟩ := h.exists_undo hsuffix
  have hrest := (List.suffix_cons b chain).trans hsuffix
  obtain ⟨writes, hback, hrun⟩ := undoTxs_writes hpos hlt hblock
    fun _ _ o _ c hc => h.restorable hstart hrest o c hc
  obtain ⟨clean, view, hok, hwrites, hclean⟩ := hrun s.view h.sound
  have hutxo := h.utxo
  rw [hchain] at hutxo ⊢
  rw [hutxo] at hwrites hclean
  refine ⟨view.setBestBlock prev.hashBlock, ?_, hwrites.flagsSound, hwrites.utxo.trans hback⟩
  simp only [disconnectBlock, hundo, hheight, hok, hclean rfl]
  rfl

end Verium
