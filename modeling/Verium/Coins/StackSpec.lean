import Verium.Coins.Stack
import Verium.Lib.PartialMap
import Verium.Lib.Iteration
import Verium.Lib.Lists

/-!
A stack of coins caches is a map from outpoints to unspent coins. The flags of each cache are
read relative to the view below it: an entry that is not dirty agrees with it, and one that is
fresh hides nothing there. Every call on the top keeps the flags right, so that `Flush` loses
and resurrects no coin, and keeps the account of the memory in use.
-/

namespace Verium

open Lib Function

namespace CCoinsViewCache

theorem accessCoin_unspent (view : CCoinsViewCache) (outpoint : COutPoint) :
    (view.accessCoin outpoint).1.unspent = view.utxo outpoint := by
  rw [accessCoin_fst, utxo]
  cases view.coinAt outpoint with
  | none => rfl
  | some c => exact (filter_unspent c).symm

theorem Coherent.uncache {view : CCoinsViewCache} (h : view.Coherent) (outpoint : COutPoint) :
    (view.uncache outpoint).Coherent ∧ (view.uncache outpoint).utxo = view.utxo := by
  unfold CCoinsViewCache.uncache
  split
  · exact ⟨h, rfl⟩
  next entry hlookup =>
    split
    · exact ⟨h, rfl⟩
    next hflags =>
      refine ⟨h.erase hlookup, ?_⟩
      simp only [Bool.or_eq_true, not_or, Bool.not_eq_true] at hflags
      funext o
      rcases eq_or_ne o outpoint with rfl | hne
      · rw [utxo_of_notMem (AList.lookup_erase o _), utxo_of_lookup hlookup]
        exact h.clean hlookup hflags.1
      · simp [utxo, coinAt, AList.lookup_erase_ne hne]

end CCoinsViewCache

section Flushing

variable {view : CCoinsViewCache} {m : COutPoint → Option Coin}

/-- What the dirty entries of a cache write below. -/
def dirtyWrites (mapCoins : List ((_ : COutPoint) × CCoinsCacheEntry)) :
    List (COutPoint × Option Coin) :=
  mapCoins.filterMap fun it => if it.2.dirty then some (it.1, it.2.coin.unspent) else none

theorem mem_dirtyWrites {mapCoins : List ((_ : COutPoint) × CCoinsCacheEntry)}
    {outpoint : COutPoint} {found : Option Coin} :
    (outpoint, found) ∈ dirtyWrites mapCoins ↔
      ∃ entry, ⟨outpoint, entry⟩ ∈ mapCoins ∧ entry.dirty = true ∧ entry.coin.unspent = found := by
  simp only [dirtyWrites, List.mem_filterMap, Option.ite_none_right_eq_some, Option.some_inj,
    Prod.mk.injEq]
  constructor
  · rintro ⟨⟨o, entry⟩, hmem, hdirty, rfl, rfl⟩
    exact ⟨entry, hmem, hdirty, rfl⟩
  · rintro ⟨entry, hmem, hdirty, rfl⟩
    exact ⟨⟨outpoint, entry⟩, hmem, hdirty, rfl, rfl⟩

theorem dirtyWrites_keys_nodup {mapCoins : List ((_ : COutPoint) × CCoinsCacheEntry)}
    (hkeys : mapCoins.NodupKeys) : ((dirtyWrites mapCoins).map Prod.fst).Nodup := by
  have hsub : ((dirtyWrites mapCoins).map Prod.fst).Sublist mapCoins.keys := by
    induction mapCoins with
    | nil => exact .refl _
    | cons it rest ih =>
      have ih := ih (List.nodupKeys_cons.mp hkeys).2
      cases hdirty : it.2.dirty with
      | true => simpa [dirtyWrites, hdirty] using ih
      | false => simpa [dirtyWrites, hdirty] using ih.cons it.1
  exact hsub.nodup hkeys

/-- One entry of `BatchWrite` into a cache: it does not throw where a fresh entry has nothing
below, and it writes the coin. -/
theorem CCoinsViewCache.Coherent.batchWriteEntry (h : view.Coherent)
    (it : (_ : COutPoint) × CCoinsCacheEntry) (hfresh : it.2.fresh = true → view.utxo it.1 = none) :
    ∃ view', view.batchWriteEntry it = .ok view' ∧ view'.Coherent ∧ view'.base = view.base ∧
      view'.utxo = writeAll view.utxo (dirtyWrites [it]) := by
  obtain ⟨outpoint, entry⟩ := it
  cases hdirty : entry.dirty with
  | false =>
    refine ⟨view, ?_, h, rfl, ?_⟩
    · simp [CCoinsViewCache.batchWriteEntry, hdirty, pure, Except.pure]
    · simp [dirtyWrites, hdirty]
  | true =>
    have hwrites : writeAll view.utxo (dirtyWrites [⟨outpoint, entry⟩]) =
        update view.utxo outpoint entry.coin.unspent := by
      simp [dirtyWrites, hdirty, writeAll]
    rw [hwrites]
    cases hlookup : view.cacheCoins.lookup outpoint with
    | none =>
      have hbase := utxo_of_notMem hlookup
      by_cases hskip : entry.fresh = true ∧ entry.coin.isSpent = true
      · refine ⟨view, ?_, h, rfl, ?_⟩
        · simp [CCoinsViewCache.batchWriteEntry, hdirty, hlookup, hskip, pure, Except.pure]
        · rw [Coin.unspent, if_pos hskip.2, ← hfresh hskip.1, update_eq_self]
      · refine ⟨{ view with
            cacheCoins := view.cacheCoins.insert outpoint ⟨entry.coin, true, entry.fresh⟩
            cachedCoinsUsage := view.cachedCoinsUsage + entry.coin.dynamicMemoryUsage },
          ?_, ?_, rfl, utxo_insert view outpoint _ _⟩
        · simp only [CCoinsViewCache.batchWriteEntry, hdirty, hlookup, hskip, not_true_eq_false,
            if_false]
          rfl
        · refine h.insert (fun hclean => ?_) (fun hf => hbase ▸ hfresh hf) ?_
          · cases hclean
          · rw [tally_insert_new (AList.lookup_eq_none.mp hlookup), ← h.usage]
    | some itUs =>
      have hbelow := utxo_of_lookup hlookup
      -- the entry below is spent if the one above is fresh, so nothing is thrown
      have hok : ¬ (entry.fresh = true ∧ ¬ itUs.coin.isSpent = true) := by
        rintro ⟨hf, hunspent⟩
        rw [hfresh hf, Coin.unspent, if_neg hunspent] at hbelow
        cases hbelow
      by_cases herase : itUs.fresh = true ∧ entry.coin.isSpent = true
      · refine ⟨_, ?_, h.erase hlookup, rfl, ?_⟩
        · simp only [CCoinsViewCache.batchWriteEntry, hdirty, hlookup, herase, not_true_eq_false,
            if_false, rejectIf_of_not hok, ok_bind]
          rfl
        · have hspent := h.fresh hlookup herase.1
          rw [Coin.unspent, if_pos herase.2]
          funext o
          rcases eq_or_ne o outpoint with rfl | hne
          · rw [update_self, utxo_of_notMem (AList.lookup_erase o _)]
            exact hspent
          · simp [utxo, coinAt, AList.lookup_erase_ne hne, update_of_ne hne]
      · refine ⟨{ view with
            cacheCoins := view.cacheCoins.insert outpoint ⟨entry.coin, true, itUs.fresh⟩
            cachedCoinsUsage := view.cachedCoinsUsage - itUs.coin.dynamicMemoryUsage +
              entry.coin.dynamicMemoryUsage },
          ?_, ?_, rfl, utxo_insert view outpoint _ _⟩
        · simp only [CCoinsViewCache.batchWriteEntry, hdirty, hlookup, herase, not_true_eq_false,
            if_false, rejectIf_of_not hok, ok_bind]
          rfl
        · refine h.insert (fun hclean => ?_) (fun hf => h.fresh hlookup hf) ?_
          · cases hclean
          · rw [tally_insert_old hlookup, ← h.usage]

theorem dirtyWrites_cons (it : (_ : COutPoint) × CCoinsCacheEntry)
    (rest : List ((_ : COutPoint) × CCoinsCacheEntry)) :
    dirtyWrites (it :: rest) = dirtyWrites [it] ++ dirtyWrites rest :=
  List.filterMap_append (l := [it])

theorem CCoinsViewCache.Coherent.batchWrite (h : view.Coherent)
    {mapCoins : List ((_ : COutPoint) × CCoinsCacheEntry)} (hkeys : mapCoins.NodupKeys)
    (hfresh : ∀ it ∈ mapCoins, it.2.fresh = true → view.utxo it.1 = none) (hashBlock : UInt256) :
    ∃ view', view.batchWrite mapCoins hashBlock = .ok view' ∧ view'.Coherent ∧
      view'.base = view.base ∧ view'.utxo = writeAll view.utxo (dirtyWrites mapCoins) := by
  induction mapCoins generalizing view with
  | nil => exact ⟨view.setBestBlock hashBlock, rfl, ⟨h.clean, h.fresh, h.usage⟩, rfl, rfl⟩
  | cons it rest ih =>
    obtain ⟨read, hread, hcoherent, hbase, hutxo⟩ :=
      h.batchWriteEntry it (hfresh it List.mem_cons_self)
    obtain ⟨hnew, hkeys⟩ := List.nodupKeys_cons.mp hkeys
    have hrest : ∀ later ∈ rest, later.2.fresh = true → read.utxo later.1 = none := by
      intro later hlater hflag
      have hne : later.1 ∉ (dirtyWrites [it]).map Prod.fst := by
        intro hmem
        obtain ⟨⟨o, found⟩, hwrite, heq⟩ := List.mem_map.mp hmem
        obtain ⟨entry, hentry, -⟩ := mem_dirtyWrites.mp hwrite
        rw [List.mem_singleton] at hentry
        have hkey : later.1 ∈ rest.keys := List.mem_keys_of_mem hlater
        rw [← heq] at hkey
        rw [← hentry] at hnew
        exact hnew hkey
      rw [hutxo, writeAll_of_notMem hne]
      exact hfresh later (List.mem_cons_of_mem _ hlater) hflag
    obtain ⟨view', hview, hcoherent', hbase', hutxo'⟩ := ih hcoherent hkeys hrest
    refine ⟨view', ?_, hcoherent', hbase'.trans hbase, ?_⟩
    · rw [CCoinsViewCache.batchWrite, List.foldlM_cons, hread, ok_bind]
      exact hview
    · rw [hutxo', hutxo, dirtyWrites_cons it rest, writeAll_append]

theorem CCoinsView.utxo_batchWrite (base : CCoinsView)
    (mapCoins : List ((_ : COutPoint) × CCoinsCacheEntry)) :
    (mapCoins.foldl CCoinsView.writeEntry base).utxo =
      writeAll base.utxo (dirtyWrites mapCoins) := by
  induction mapCoins generalizing base with
  | nil => rfl
  | cons it rest ih =>
    rw [List.foldl_cons, ih, dirtyWrites_cons it rest, writeAll_append]
    congr 1
    unfold CCoinsView.writeEntry
    cases hdirty : it.2.dirty with
    | false => simp [dirtyWrites, hdirty]
    | true =>
      funext o
      rcases eq_or_ne o it.1 with rfl | hne
      · cases hspent : it.2.coin.isSpent <;>
          simp [CCoinsView.utxo, dirtyWrites, hdirty, writeAll, Coin.unspent, hspent]
      · simp [CCoinsView.utxo, dirtyWrites, hdirty, writeAll, update_of_ne hne]

/-- What a cache shows is what is below it, overwritten by its dirty entries in any order. -/
theorem CCoinsViewCache.Coherent.writeAll_dirtyWrites (h : view.Coherent)
    {mapCoins : List ((_ : COutPoint) × CCoinsCacheEntry)}
    (hperm : mapCoins.Perm view.cacheCoins.entries) :
    writeAll view.base.utxo (dirtyWrites mapCoins) = view.utxo := by
  have hkeys : mapCoins.NodupKeys :=
    (List.perm_nodupKeys hperm).mpr view.cacheCoins.nodupKeys
  have hentry : ∀ {o entry}, ⟨o, entry⟩ ∈ mapCoins ↔
      view.cacheCoins.lookup o = some entry := by
    intro o entry
    rw [hperm.mem_iff]
    exact (AList.mem_lookup_iff).symm
  funext o
  cases hlookup : view.cacheCoins.lookup o with
  | none =>
    rw [utxo_of_notMem hlookup]
    apply writeAll_of_notMem
    intro hmem
    obtain ⟨⟨o', found⟩, hwrite, rfl⟩ := List.mem_map.mp hmem
    obtain ⟨entry, hmem', -⟩ := mem_dirtyWrites.mp hwrite
    rw [hentry.mp hmem'] at hlookup
    cases hlookup
  | some entry =>
    rw [utxo_of_lookup hlookup]
    cases hdirty : entry.dirty with
    | true =>
      apply writeAll_of_mem (dirtyWrites_keys_nodup hkeys)
      exact mem_dirtyWrites.mpr ⟨entry, hentry.mpr hlookup, hdirty, rfl⟩
    | false =>
      rw [← h.clean hlookup hdirty]
      apply writeAll_of_notMem
      intro hmem
      obtain ⟨⟨o', found⟩, hwrite, rfl⟩ := List.mem_map.mp hmem
      obtain ⟨entry', hmem', hdirty', -⟩ := mem_dirtyWrites.mp hwrite
      rw [hentry.mp hmem'] at hlookup
      cases hlookup
      rw [hdirty] at hdirty'
      cases hdirty'

end Flushing

namespace CoinsBacking

/-- Every cache of the backing is right with respect to what is below it. -/
def Coherent : CoinsBacking → Prop
  | .plain _ => True
  | .cache layer below => (layer.over below.asView).Coherent ∧ below.Coherent

variable {backing : CoinsBacking}

theorem layer_over {view : CCoinsViewCache} {base : CCoinsView} (h : view.base = base) :
    view.layer.over base = view := by
  subst h
  rfl

theorem getCoin_layer_over (layer : CoinsLayer) (base : CCoinsView) (outpoint : COutPoint) :
    ((layer.over base).getCoin outpoint).2.layer.over base =
      ((layer.over base).getCoin outpoint).2 :=
  layer_over (CCoinsViewCache.getCoin_readsTo (layer.over base) outpoint).base

theorem asView_cache (layer : CoinsLayer) (below : CoinsBacking) :
    (CoinsBacking.cache layer below).asView =
      ⟨(layer.over below.asView).utxo, (layer.over below.asView).getBestBlock⟩ := by
  have hcoins : (fun o => ((layer.over below.asView).getCoin o).1) =
      (layer.over below.asView).utxo := by
    funext o
    exact CCoinsViewCache.getCoin_fst _ o
  rw [← hcoins]
  rfl

theorem asView_cache_utxo (layer : CoinsLayer) (below : CoinsBacking) :
    (CoinsBacking.cache layer below).asView.utxo = (layer.over below.asView).utxo := by
  rw [asView_cache]
  funext o
  simp [CCoinsView.utxo, CCoinsViewCache.utxo, Option.filter_filter]

theorem getCoin_asView (backing : CoinsBacking) (outpoint : COutPoint) :
    (backing.getCoin outpoint).2.asView = backing.asView := by
  induction backing generalizing outpoint with
  | plain base => rfl
  | cache layer below ih =>
    have hread := CCoinsViewCache.getCoin_readsTo (layer.over below.asView) outpoint
    have hasked : (below.askedBy layer outpoint).asView = below.asView := by
      unfold askedBy
      split
      · rfl
      · exact ih outpoint
    change (CoinsBacking.cache ((layer.over below.asView).getCoin outpoint).2.layer
      (below.askedBy layer outpoint)).asView = _
    rw [asView_cache, asView_cache, hasked, getCoin_layer_over, hread.utxo]
    congr 1
    rw [CCoinsViewCache.getBestBlock, hread.base, hread.hashBlock]
    rfl

theorem askedBy_asView (backing : CoinsBacking) (layer : CoinsLayer) (outpoint : COutPoint) :
    (backing.askedBy layer outpoint).asView = backing.asView := by
  unfold askedBy
  split
  · rfl
  · exact getCoin_asView backing outpoint

theorem Coherent.getCoin (h : backing.Coherent) (outpoint : COutPoint) :
    (backing.getCoin outpoint).2.Coherent := by
  induction backing generalizing outpoint with
  | plain base => trivial
  | cache layer below ih =>
    change (CoinsBacking.cache ((layer.over below.asView).getCoin outpoint).2.layer
      (below.askedBy layer outpoint)).Coherent
    refine ⟨?_, ?_⟩
    · rw [askedBy_asView, getCoin_layer_over]
      exact (CCoinsViewCache.getCoin_readsTo _ outpoint).coherent h.1
    · unfold askedBy
      split
      · exact h.2
      · exact ih h.2 outpoint

theorem Coherent.askedBy (h : backing.Coherent) (layer : CoinsLayer) (outpoint : COutPoint) :
    (backing.askedBy layer outpoint).Coherent := by
  unfold CoinsBacking.askedBy
  split
  · exact h
  · exact h.getCoin outpoint

/-- The entries of a cache above are written into the backing without an exception. -/
theorem Coherent.batchWrite (h : backing.Coherent)
    {mapCoins : List ((_ : COutPoint) × CCoinsCacheEntry)} (hkeys : mapCoins.NodupKeys)
    (hfresh : ∀ it ∈ mapCoins, it.2.fresh = true → backing.asView.utxo it.1 = none)
    (hashBlock : UInt256) :
    ∃ backing', backing.batchWrite mapCoins hashBlock = .ok backing' ∧ backing'.Coherent ∧
      backing'.asView.utxo = writeAll backing.asView.utxo (dirtyWrites mapCoins) := by
  cases backing with
  | plain base => exact ⟨_, rfl, trivial, CCoinsView.utxo_batchWrite base mapCoins⟩
  | cache layer below =>
    rw [asView_cache_utxo] at hfresh ⊢
    obtain ⟨view', hview, hcoherent, hbase, hutxo⟩ := h.1.batchWrite hkeys hfresh hashBlock
    have hover := layer_over hbase
    refine ⟨.cache view'.layer below, ?_, ⟨?_, h.2⟩, ?_⟩
    · rw [CoinsBacking.batchWrite, hview]
      rfl
    · exact hover.symm ▸ hcoherent
    · rw [asView_cache_utxo, ← hutxo]
      exact congrArg _ hover

theorem Coherent.layer_usage (h : backing.Coherent) {layer : CoinsLayer}
    (hlayer : layer ∈ backing.layers) :
    layer.cachedCoinsUsage =
      tally (fun entry : CCoinsCacheEntry => entry.coin.dynamicMemoryUsage) layer.cacheCoins := by
  induction backing with
  | plain base => cases hlayer
  | cache top below ih =>
    rcases List.mem_cons.mp hlayer with rfl | hlayer
    · exact h.1.usage
    · exact ih h.2 hlayer

end CoinsBacking

/-! ### The map that a stack implements -/

namespace CoinsOp

/-- What a call does to the map of the unspent coins. An output that cannot be spent is not
added. -/
def apply (m : COutPoint → Option Coin) : CoinsOp → COutPoint → Option Coin
  | .addCoin outpoint coin _ =>
      if isUnspendable coin.out.scriptPubKey then m else update m outpoint (some coin)
  | .spendCoin outpoint => update m outpoint none
  | _ => m

/-- What the caller of `AddCoin` has to see to. -/
def Allowed (m : COutPoint → Option Coin) : CoinsOp → Prop
  | .addCoin outpoint coin possibleOverwrite =>
      coin.isSpent = false ∧ (possibleOverwrite = false → m outpoint = none)
  | _ => True

end CoinsOp

namespace CoinsStack

/-- The stack stands for the map of unspent coins. -/
structure Represents (s : CoinsStack) (m : COutPoint → Option Coin) : Prop where
  utxo : s.view.utxo = m
  coherent : s.view.Coherent
  below : s.below.Coherent

variable {s : CoinsStack} {m : COutPoint → Option Coin}

theorem Represents.of_view {view : CCoinsViewCache} {below : CoinsBacking}
    (hbase : view.base = below.asView) (hutxo : view.utxo = m) (hcoherent : view.Coherent)
    (hbelow : below.Coherent) : Represents ⟨view.layer, below⟩ m := by
  have hview : (⟨view.layer, below⟩ : CoinsStack).view = view := CoinsBacking.layer_over hbase
  exact ⟨hview.symm ▸ hutxo, hview.symm ▸ hcoherent, hbelow⟩

theorem Represents.asked (h : s.Represents m) (outpoint : COutPoint) {view : CCoinsViewCache}
    {m' : COutPoint → Option Coin} (hwrites : s.view.WritesTo view m') :
    Represents ⟨view.layer, s.below.askedBy s.top outpoint⟩ m' := by
  refine .of_view ?_ hwrites.utxo (hwrites.coherent h.coherent) (h.below.askedBy s.top outpoint)
  rw [CoinsBacking.askedBy_asView, hwrites.base]
  rfl

theorem Represents.fetchCoin (h : s.Represents m) (outpoint : COutPoint) :
    Represents ⟨(s.view.fetchCoin outpoint).2.layer, s.below.askedBy s.top outpoint⟩ m := by
  have hread := CCoinsViewCache.fetchCoin_readsTo s.view outpoint
  rw [← h.utxo]
  exact h.asked outpoint (hread.writesTo h.coherent.flagsSound)

theorem Represents.spendCoin (h : s.Represents m) (outpoint : COutPoint) :
    (s.spendCoin outpoint).2.Represents (update m outpoint none) := by
  rw [← h.utxo]
  unfold CoinsStack.spendCoin
  cases hspend : s.view.spendCoin outpoint with
  | none =>
    rw [← CCoinsViewCache.utxo_of_spendCoin_none hspend, update_eq_self]
    exact h.asked outpoint ((CCoinsViewCache.ReadsTo.refl _).writesTo h.coherent.flagsSound)
  | some spent =>
    exact h.asked outpoint (CCoinsViewCache.spendCoin_writesTo h.coherent.flagsSound hspend).2

theorem Represents.addCoin {outpoint : COutPoint} {coin : Coin} {overwrite : Bool}
    (h : s.Represents m) (hunspent : coin.isSpent = false)
    (hnone : overwrite = false → m outpoint = none) :
    ∃ s', s.addCoin outpoint coin overwrite = .ok s' ∧
      s'.Represents (CoinsOp.apply m (.addCoin outpoint coin overwrite)) := by
  rw [← h.utxo] at hnone
  cases hscript : isUnspendable coin.out.scriptPubKey with
  | true =>
    refine ⟨s, ?_, ?_⟩
    · rw [CoinsStack.addCoin, CCoinsViewCache.addCoin_unspendable hunspent hscript]
      rfl
    · simpa [CoinsOp.apply, hscript] using h
  | false =>
    have hspent : overwrite = false → (s.view.emplacedEntry outpoint).coin.isSpent = true := by
      intro hoverwrite
      have hutxo := hnone hoverwrite
      rw [CCoinsViewCache.emplacedEntry]
      cases hlookup : s.view.cacheCoins.lookup outpoint with
      | none => rfl
      | some entry =>
        rw [CCoinsViewCache.utxo_of_lookup hlookup, Coin.unspent,
          ite_eq_left_iff] at hutxo
        by_contra hne
        cases hutxo hne
    refine ⟨⟨(s.view.storeCoin outpoint coin overwrite).layer, s.below⟩, ?_, ?_⟩
    · rw [CoinsStack.addCoin, CCoinsViewCache.addCoin_spendable hunspent hscript, if_neg]
      · rfl
      · rintro ⟨hoverwrite, hne⟩
        rw [hspent hoverwrite] at hne
        cases hne
    · apply Represents.of_view
      · rfl
      · rw [CCoinsViewCache.storeCoin, CCoinsViewCache.utxo_insert, h.utxo]
        simp [CoinsOp.apply, hscript, hunspent]
      · exact h.coherent.storeCoin hnone
      · exact h.below

theorem Represents.uncache (h : s.Represents m) (outpoint : COutPoint) :
    (s.uncache outpoint).Represents m := by
  obtain ⟨hcoherent, hutxo⟩ := h.coherent.uncache outpoint
  apply Represents.of_view
  · unfold CCoinsViewCache.uncache
    split
    · rfl
    · split <;> rfl
  · rw [hutxo, h.utxo]
  · exact hcoherent
  · exact h.below

theorem Represents.new {hashBlock : UInt256} {below : CoinsBacking} (hutxo : below.asView.utxo = m)
    (hbelow : below.Coherent) : Represents ⟨⟨hashBlock, ∅, 0⟩, below⟩ m := by
  refine ⟨?_, ⟨?_, ?_, ?_⟩, hbelow⟩
  · rw [← hutxo]
    funext o
    exact CCoinsViewCache.utxo_of_notMem (AList.lookup_empty o)
  · intro o entry hlookup
    cases hlookup
  · intro o entry hlookup
    cases hlookup
  · exact (tally_empty _).symm

theorem Represents.flush (h : s.Represents m) (order : HashOrder) :
    ∃ s', s.flush order = .ok s' ∧ s'.Represents m := by
  have hperm := order.perm s.top.cacheCoins
  have hkeys := (List.perm_nodupKeys hperm).mpr s.top.cacheCoins.nodupKeys
  have hfresh : ∀ it ∈ order.visit s.top.cacheCoins, it.2.fresh = true →
      s.below.asView.utxo it.1 = none := by
    intro it hit hflag
    exact h.coherent.fresh (AList.mem_lookup_iff.mpr (hperm.mem_iff.mp hit)) hflag
  obtain ⟨below, hbelow, hcoherent, hutxo⟩ := h.below.batchWrite hkeys hfresh s.top.hashBlock
  refine ⟨⟨{ s.top with cacheCoins := ∅, cachedCoinsUsage := 0 }, below⟩, ?_, ?_⟩
  · rw [CoinsStack.flush, hbelow]
    rfl
  · refine .new ?_ hcoherent
    rw [hutxo, ← h.utxo]
    exact h.coherent.writeAll_dirtyWrites hperm

theorem Represents.step {op : CoinsOp} (h : s.Represents m) (hop : op.Allowed m) :
    ∃ s', s.step op = .ok s' ∧ s'.Represents (op.apply m) := by
  cases op with
  | addCoin outpoint coin overwrite => exact h.addCoin hop.1 hop.2
  | spendCoin outpoint => exact ⟨_, rfl, h.spendCoin outpoint⟩
  | getCoin outpoint => exact ⟨_, rfl, h.fetchCoin outpoint⟩
  | haveCoin outpoint => exact ⟨_, rfl, h.fetchCoin outpoint⟩
  | accessCoin outpoint => exact ⟨_, rfl, h.fetchCoin outpoint⟩
  | uncache outpoint => exact ⟨_, rfl, h.uncache outpoint⟩
  | setBestBlock hashBlock =>
    exact ⟨_, rfl, h.utxo, ⟨h.coherent.clean, h.coherent.fresh, h.coherent.usage⟩, h.below⟩
  | flush order => exact h.flush order
  | push =>
    refine ⟨_, rfl, .new ?_ ⟨h.coherent, h.below⟩⟩
    rw [CoinsBacking.asView_cache_utxo]
    exact h.utxo

theorem Represents.run {ops : List CoinsOp} (h : s.Represents m)
    (hops : Along CoinsOp.apply CoinsOp.Allowed m ops) :
    ∃ s', ops.foldlM CoinsStack.step s = .ok s' ∧
      s'.Represents (ops.foldl CoinsOp.apply m) := by
  induction ops generalizing s m with
  | nil => exact ⟨s, rfl, h⟩
  | cons op rest ih =>
    obtain ⟨s₁, hstep, h₁⟩ := h.step hops.1
    obtain ⟨s', hrun, h'⟩ := ih h₁ hops.2
    refine ⟨s', ?_, h'⟩
    rw [List.foldlM_cons, hstep, ok_bind, hrun]

end CoinsStack

/-- A stack of caches is a map of unspent coins, whatever is called on it and however often a
new cache is laid on top: no call fails, so that `BatchWrite` finds no misapplied flag, every
read answers from the map, and the account of each layer is the sum over its entries. -/
theorem coinsStack_refines_map (base : CCoinsView) (ops : List CoinsOp)
    (hops : Along CoinsOp.apply CoinsOp.Allowed base.utxo ops) :
    ∃ s, ops.foldlM CoinsStack.step (CoinsStack.new base) = .ok s ∧
      (∀ outpoint, (s.getCoin outpoint).1 = ops.foldl CoinsOp.apply base.utxo outpoint) ∧
      (∀ outpoint,
        (s.haveCoin outpoint).1 = (ops.foldl CoinsOp.apply base.utxo outpoint).isSome) ∧
      (∀ outpoint,
        (s.accessCoin outpoint).1.unspent = ops.foldl CoinsOp.apply base.utxo outpoint) ∧
      ∀ layer ∈ s.layers, layer.cachedCoinsUsage =
        tally (fun entry : CCoinsCacheEntry => entry.coin.dynamicMemoryUsage)
          layer.cacheCoins := by
  have hnew : (CoinsStack.new base).Represents base.utxo := .new rfl trivial
  obtain ⟨s, hrun, h⟩ := hnew.run hops
  refine ⟨s, hrun, ?_, ?_, ?_, ?_⟩
  · intro o
    rw [← h.utxo]
    exact CCoinsViewCache.getCoin_fst s.view o
  · intro o
    rw [← h.utxo]
    exact CCoinsViewCache.haveCoin_fst s.view o
  · intro o
    rw [← h.utxo]
    exact CCoinsViewCache.accessCoin_unspent s.view o
  · intro layer hlayer
    have hall : (CoinsBacking.cache s.top s.below).Coherent := ⟨h.coherent, h.below⟩
    exact hall.layer_usage hlayer

/-- A view with no coins. -/
def noCoins : CCoinsView := ⟨fun _ => none, 0⟩

def sampleOutPoint : COutPoint := ⟨1, 0⟩

/-- A coin with the script `OP_TRUE`. -/
def sampleCoin : Coin := ⟨⟨5, [0x51]⟩, false, 1⟩

/-- A coin with the script `OP_RETURN`. -/
def unspendableCoin : Coin := ⟨⟨5, [0x6a]⟩, false, 1⟩

/-- The order in which the entries were inserted. -/
def insertionOrder : HashOrder := ⟨AList.entries, fun _ => .refl _⟩

/-- A coin is added in an upper cache, spent in one above it and both are flushed. -/
def sampleOps : List CoinsOp :=
  [.push, .addCoin sampleOutPoint sampleCoin false, .flush insertionOrder, .push,
    .spendCoin sampleOutPoint, .flush insertionOrder, .addCoin sampleOutPoint sampleCoin false,
    .flush insertionOrder]

theorem sampleOps_refine_map :
    Along CoinsOp.apply CoinsOp.Allowed noCoins.utxo sampleOps ∧
      ∃ s, sampleOps.foldlM CoinsStack.step (CoinsStack.new noCoins) = .ok s ∧
        (s.getCoin sampleOutPoint).1 = some sampleCoin := by
  have hops : Along CoinsOp.apply CoinsOp.Allowed noCoins.utxo sampleOps := by
    refine ⟨trivial, ⟨rfl, fun _ => rfl⟩, trivial, trivial, trivial, trivial, ⟨rfl, fun _ => ?_⟩,
      trivial, trivial⟩
    simp [CoinsOp.apply]
  refine ⟨hops, ?_⟩
  obtain ⟨s, hrun, hget, -⟩ := coinsStack_refines_map noCoins sampleOps hops
  exact ⟨s, hrun, hget sampleOutPoint⟩

/-- An output that cannot be spent is not stored, so a map that records every addition has a
coin that the cache does not have. -/
theorem unspendableCoin_not_stored :
    ∃ s, (CoinsStack.new noCoins).addCoin sampleOutPoint unspendableCoin false = .ok s ∧
      (s.getCoin sampleOutPoint).1 = none ∧
      update noCoins.utxo sampleOutPoint (some unspendableCoin) sampleOutPoint =
        some unspendableCoin ∧ unspendableCoin.isSpent = false :=
  ⟨_, rfl, rfl, update_self _ _ _, rfl⟩

end Verium
