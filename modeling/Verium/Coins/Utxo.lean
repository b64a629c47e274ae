import Mathlib.Data.UInt
import Verium.Coins.Cache
import Verium.Lib.Lists

/-!
What a coins cache stands for, and what each of its operations does to it. The unspent
coins of a view are a partial map from outpoints to coins. Reading never changes it;
spending erases a key and adding inserts one, provided the flags of the cache are sound: an
entry marked fresh, or a spent one not marked dirty, hides no unspent coin of the base. All of them
keep a cache coherent, which says more: what is not dirty agrees with the base, and the account of
the memory in use is right.
-/

namespace Verium

open Lib Function

/-- The coin, if it is unspent. -/
def Coin.unspent (c : Coin) : Option Coin :=
  if c.isSpent then none else some c

/-- The unspent coin that a plain view has at an outpoint. -/
def CCoinsView.utxo (view : CCoinsView) (outpoint : COutPoint) : Option Coin :=
  (view.getCoin outpoint).filter fun c => !c.isSpent

namespace CCoinsViewCache

/-- The coin the view holds at an outpoint, spent or not. -/
def coinAt (view : CCoinsViewCache) (outpoint : COutPoint) : Option Coin :=
  match view.cacheCoins.lookup outpoint with
  | some entry => some entry.coin
  | none => view.base.getCoin outpoint

/-- The unspent coin at an outpoint: the UTXO set the view represents. -/
def utxo (view : CCoinsViewCache) (outpoint : COutPoint) : Option Coin :=
  (view.coinAt outpoint).filter fun c => !c.isSpent

/-- The base has no unspent coin at the outpoint. -/
def BaseSpent (view : CCoinsViewCache) (outpoint : COutPoint) : Prop :=
  ∀ c, view.base.getCoin outpoint = some c → c.isSpent = true

/-- The meaning of the flags: a fresh entry can be erased without the base showing through,
and a spent entry that is not dirty agrees with the base. -/
def FlagsSound (view : CCoinsViewCache) : Prop :=
  ∀ outpoint entry, view.cacheCoins.lookup outpoint = some entry →
    (entry.fresh = true ∨ (entry.dirty = false ∧ entry.coin.isSpent = true)) →
    view.BaseSpent outpoint

/-- Every outpoint of `outs` at which the base has an unspent coin is cached. -/
def Covers (view : CCoinsViewCache) (outs : COutPoint → Prop) : Prop :=
  ∀ outpoint, outs outpoint → outpoint ∉ view.cacheCoins → view.BaseSpent outpoint

/-- The flags of the entries are right with respect to the base, and so is the memory
account. -/
structure Coherent (view : CCoinsViewCache) : Prop where
  clean : ∀ {outpoint entry}, view.cacheCoins.lookup outpoint = some entry →
    entry.dirty = false → view.base.utxo outpoint = entry.coin.unspent
  fresh : ∀ {outpoint entry}, view.cacheCoins.lookup outpoint = some entry →
    entry.fresh = true → view.base.utxo outpoint = none
  usage : view.cachedCoinsUsage =
    tally (fun entry : CCoinsCacheEntry => entry.coin.dynamicMemoryUsage) view.cacheCoins

/-- `view'` is `view` after reads: some coins have moved from the base into the cache. -/
structure ReadsTo (view view' : CCoinsViewCache) : Prop where
  coinAt : view'.coinAt = view.coinAt
  base : view'.base = view.base
  hashBlock : view'.hashBlock = view.hashBlock
  flagsSound : view.FlagsSound → view'.FlagsSound
  coherent : view.Coherent → view'.Coherent
  /-- Nothing leaves the cache. -/
  cached : ∀ outpoint ∈ view.cacheCoins, outpoint ∈ view'.cacheCoins

namespace ReadsTo

variable {view view' view'' : CCoinsViewCache}

theorem refl (view : CCoinsViewCache) : ReadsTo view view :=
  ⟨rfl, rfl, rfl, id, id, fun _ h => h⟩

theorem trans (h : ReadsTo view view') (h' : ReadsTo view' view'') : ReadsTo view view'' where
  coinAt := h'.coinAt.trans h.coinAt
  base := h'.base.trans h.base
  hashBlock := h'.hashBlock.trans h.hashBlock
  flagsSound := fun hs => h'.flagsSound (h.flagsSound hs)
  coherent := fun hs => h'.coherent (h.coherent hs)
  cached := fun o ho => h'.cached o (h.cached o ho)

theorem utxo (h : ReadsTo view view') : view'.utxo = view.utxo := by
  funext o
  simp only [CCoinsViewCache.utxo, h.coinAt]

theorem covers {outs : COutPoint → Prop} (h : ReadsTo view view') (hc : view.Covers outs) :
    view'.Covers outs := by
  intro o ho hcached c hbase
  rw [h.base] at hbase
  exact hc o ho (fun hmem => hcached (h.cached o hmem)) c hbase

end ReadsTo

variable (view : CCoinsViewCache) (outpoint : COutPoint)

theorem utxo_eq_some {view : CCoinsViewCache} {outpoint : COutPoint} {c : Coin} :
    view.utxo outpoint = some c ↔ view.coinAt outpoint = some c ∧ c.isSpent = false := by
  simp [utxo, Option.filter_eq_some_iff]

theorem utxo_eq_none {view : CCoinsViewCache} {outpoint : COutPoint} :
    view.utxo outpoint = none ↔
      ∀ c, view.coinAt outpoint = some c → c.isSpent = true := by
  simp [utxo, Option.filter_eq_none_iff]

theorem fetchCoin_coin :
    (view.fetchCoin outpoint).1.map CCoinsCacheEntry.coin = view.coinAt outpoint := by
  unfold fetchCoin coinAt
  cases view.cacheCoins.lookup outpoint with
  | some entry => rfl
  | none =>
    cases hbase : view.base.getCoin outpoint with
    | none => simp
    | some tmp => simp

section Entries

variable {view outpoint} {entry : CCoinsCacheEntry} {coin : Coin}

theorem filter_unspent (c : Coin) : (some c).filter (fun c => !c.isSpent) = c.unspent := by
  unfold Coin.unspent
  cases h : c.isSpent <;> simp [Option.filter, h]

theorem utxo_of_lookup (h : view.cacheCoins.lookup outpoint = some entry) :
    view.utxo outpoint = entry.coin.unspent := by
  rw [utxo, coinAt, h]
  exact filter_unspent entry.coin

theorem utxo_of_notMem (h : view.cacheCoins.lookup outpoint = none) :
    view.utxo outpoint = view.base.utxo outpoint := by
  rw [utxo, coinAt, h]
  rfl

theorem baseSpent_iff : view.BaseSpent outpoint ↔ view.base.utxo outpoint = none := by
  rw [CCoinsView.utxo, Option.filter_eq_none_iff]
  simp [BaseSpent]

theorem Coherent.flagsSound (h : view.Coherent) : view.FlagsSound := by
  rintro o entry hlookup (hfresh | ⟨hclean, hspent⟩)
  · exact baseSpent_iff.mpr (h.fresh hlookup hfresh)
  · rw [baseSpent_iff, h.clean hlookup hclean, Coin.unspent, if_pos hspent]

theorem Coherent.insert {usage : UInt64} (h : view.Coherent)
    (hclean : entry.dirty = false → view.base.utxo outpoint = entry.coin.unspent)
    (hfresh : entry.fresh = true → view.base.utxo outpoint = none)
    (husage : usage = tally (fun entry : CCoinsCacheEntry => entry.coin.dynamicMemoryUsage)
      (view.cacheCoins.insert outpoint entry)) :
    Coherent { view with
      cacheCoins := view.cacheCoins.insert outpoint entry, cachedCoinsUsage := usage } := by
  refine ⟨?_, ?_, husage⟩
  · intro o e he hflag
    obtain ⟨rfl, rfl⟩ | ⟨-, he⟩ := lookup_insert_eq_some.mp he
    · exact hclean hflag
    · exact h.clean he hflag
  · intro o e he hflag
    obtain ⟨rfl, rfl⟩ | ⟨-, he⟩ := lookup_insert_eq_some.mp he
    · exact hfresh hflag
    · exact h.fresh he hflag

theorem Coherent.erase (h : view.Coherent)
    (hlookup : view.cacheCoins.lookup outpoint = some entry) :
    Coherent { view with
      cacheCoins := view.cacheCoins.erase outpoint
      cachedCoinsUsage := view.cachedCoinsUsage - entry.coin.dynamicMemoryUsage } := by
  refine ⟨fun he => h.clean (lookup_erase_eq_some.mp he).2,
    fun he => h.fresh (lookup_erase_eq_some.mp he).2, ?_⟩
  change view.cachedCoinsUsage - _ = tally _ (view.cacheCoins.erase outpoint)
  rw [tally_erase hlookup, ← h.usage]

theorem utxo_insert (view : CCoinsViewCache) (outpoint : COutPoint)
    (entry : CCoinsCacheEntry) (usage : UInt64) :
    utxo { view with
      cacheCoins := view.cacheCoins.insert outpoint entry, cachedCoinsUsage := usage } =
      update view.utxo outpoint
        (if entry.coin.isSpent then none else some entry.coin) := by
  funext o
  by_cases ho : o = outpoint
  · subst ho
    cases hs : entry.coin.isSpent <;> simp [utxo, coinAt, Option.filter, hs]
  · simp [utxo, coinAt, AList.lookup_insert_ne ho, update_of_ne ho]

theorem covers_insert {outs : COutPoint → Prop} (hc : view.Covers outs)
    (entry : CCoinsCacheEntry) (usage : UInt64) :
    Covers { view with
      cacheCoins := view.cacheCoins.insert outpoint entry, cachedCoinsUsage := usage }
      outs := by
  intro o ho hcached
  exact hc o ho (fun hmem => hcached (AList.mem_insert _ |>.mpr (.inr hmem)))

theorem flagsSound_insert (hsound : view.FlagsSound) (usage : UInt64)
    (hentry : entry.fresh = true ∨ (entry.dirty = false ∧ entry.coin.isSpent = true) →
      view.BaseSpent outpoint) :
    FlagsSound { view with
      cacheCoins := view.cacheCoins.insert outpoint entry, cachedCoinsUsage := usage } := by
  intro o e hlookup hflags
  obtain ⟨rfl, rfl⟩ | ⟨-, hlookup⟩ := lookup_insert_eq_some.mp hlookup
  · exact hentry hflags
  · exact hsound o e hlookup hflags

theorem Coherent.clearEntry (h : view.Coherent)
    (hlookup : view.cacheCoins.lookup outpoint = some entry) :
    (view.clearEntry outpoint entry).Coherent := by
  unfold CCoinsViewCache.clearEntry
  cases hfresh : entry.fresh with
  | true => exact h.erase hlookup
  | false =>
    refine h.insert (fun hdirty => ?_) (fun hfresh => ?_) ?_
    · cases hdirty
    · cases hfresh
    · have hempty : Coin.empty.dynamicMemoryUsage = 0 := by decide
      rw [tally_insert_old hlookup, ← h.usage, hempty, add_zero]

theorem Coherent.storeCoin {overwrite : Bool} (h : view.Coherent)
    (hnone : overwrite = false → view.utxo outpoint = none) :
    (view.storeCoin outpoint coin overwrite).Coherent := by
  unfold CCoinsViewCache.storeCoin
  dsimp only
  cases hlookup : view.cacheCoins.lookup outpoint with
  | none =>
    have hentry : view.emplacedEntry outpoint = .empty := by rw [emplacedEntry, hlookup]; rfl
    have hmem := AList.lookup_eq_none.mp hlookup
    rw [hentry, if_neg hmem]
    refine h.insert (fun hdirty => ?_) (fun hfresh => ?_) ?_
    · cases hdirty
    · have hoverwrite : overwrite = false := by simpa [CCoinsCacheEntry.empty] using hfresh
      rw [← utxo_of_notMem hlookup]
      exact hnone hoverwrite
    · rw [tally_insert_new hmem, ← h.usage]
  | some entry =>
    have hentry : view.emplacedEntry outpoint = entry := by rw [emplacedEntry, hlookup]; rfl
    have hmem : outpoint ∈ view.cacheCoins := AList.lookup_isSome.mp (by rw [hlookup]; rfl)
    rw [hentry, if_pos hmem]
    refine h.insert (fun hdirty => ?_) (fun hfresh => ?_) ?_
    · cases hdirty
    · simp only [Bool.or_eq_true, Bool.and_eq_true, Bool.not_eq_true'] at hfresh
      rcases hfresh with hfresh | ⟨hoverwrite, hclean⟩
      · exact h.fresh hlookup hfresh
      · rw [h.clean hlookup hclean, ← utxo_of_lookup hlookup]
        exact hnone hoverwrite
    · rw [tally_insert_old hlookup, ← h.usage]

end Entries

theorem fetchCoin_readsTo : ReadsTo view (view.fetchCoin outpoint).2 := by
  unfold fetchCoin
  cases hcache : view.cacheCoins.lookup outpoint with
  | some entry => exact ReadsTo.refl view
  | none =>
    cases hbase : view.base.getCoin outpoint with
    | none => exact ReadsTo.refl view
    | some tmp =>
      have hutxo : view.base.utxo outpoint = tmp.unspent := by
        rw [CCoinsView.utxo, hbase, filter_unspent]
      have hspent : tmp.isSpent = true → view.base.utxo outpoint = none := by
        intro hspent
        rw [hutxo, Coin.unspent, if_pos hspent]
      refine ⟨?_, rfl, rfl, ?_, ?_, ?_⟩
      · funext o
        by_cases ho : o = outpoint
        · subst ho
          simp [coinAt, hcache, hbase]
        · simp [coinAt, AList.lookup_insert_ne ho]
      · intro hsound
        apply flagsSound_insert hsound
        rintro (hflag | ⟨-, hflag⟩) <;> exact baseSpent_iff.mpr (hspent hflag)
      · intro h
        refine h.insert (fun _ => hutxo) hspent ?_
        rw [tally_insert_new (AList.lookup_eq_none.mp hcache), ← h.usage]
      · intro o ho
        exact AList.mem_insert _ |>.mpr (.inr ho)

theorem accessCoin_fst :
    (view.accessCoin outpoint).1 = (view.coinAt outpoint).getD Coin.empty := by
  rw [← fetchCoin_coin]
  rfl

theorem accessCoin_readsTo : ReadsTo view (view.accessCoin outpoint).2 :=
  fetchCoin_readsTo view outpoint

theorem accessCoin_isSpent :
    (view.accessCoin outpoint).1.isSpent = true ↔ view.utxo outpoint = none := by
  rw [accessCoin_fst, utxo_eq_none]
  cases view.coinAt outpoint with
  | none => simp
  | some c => simp

theorem accessCoin_of_utxo {c : Coin} (h : view.utxo outpoint = some c) :
    (view.accessCoin outpoint).1 = c := by
  rw [accessCoin_fst, (utxo_eq_some.mp h).1]
  rfl

theorem getCoin_fst : (view.getCoin outpoint).1 = view.utxo outpoint := by
  rw [utxo, ← fetchCoin_coin]
  rfl

theorem getCoin_readsTo : ReadsTo view (view.getCoin outpoint).2 :=
  fetchCoin_readsTo view outpoint

theorem haveCoin_fst : (view.haveCoin outpoint).1 = (view.utxo outpoint).isSome := by
  rw [utxo, ← fetchCoin_coin]
  change (view.fetchCoin outpoint).1.any (fun e => !e.coin.isSpent) = _
  cases (view.fetchCoin outpoint).1 with
  | none => rfl
  | some entry => cases hs : entry.coin.isSpent <;> simp [Option.filter, hs]

theorem haveCoin_readsTo : ReadsTo view (view.haveCoin outpoint).2 :=
  fetchCoin_readsTo view outpoint

theorem mem_haveCoin_cacheCoins {c : Coin} (h : view.base.getCoin outpoint = some c) :
    outpoint ∈ (view.haveCoin outpoint).2.cacheCoins := by
  change outpoint ∈ (view.fetchCoin outpoint).2.cacheCoins
  unfold fetchCoin
  cases hcache : view.cacheCoins.lookup outpoint with
  | some entry => exact AList.lookup_isSome.mp (by simp [hcache])
  | none => simp [h]

section Writes

/-- `view'` is `view` after writes that leave the UTXO set `utxo'`; everything else the view
stands for is as before. -/
structure WritesTo (view view' : CCoinsViewCache) (utxo' : COutPoint → Option Coin) : Prop where
  utxo : view'.utxo = utxo'
  base : view'.base = view.base
  hashBlock : view'.hashBlock = view.hashBlock
  flagsSound : view'.FlagsSound
  coherent : view.Coherent → view'.Coherent
  covers : ∀ outs, view.Covers outs → view'.Covers outs

variable {view outpoint} {view' read : CCoinsViewCache} {c : Coin} {entry : CCoinsCacheEntry}

theorem ReadsTo.writesTo (h : ReadsTo view view') (hsound : view.FlagsSound) :
    WritesTo view view' view.utxo :=
  ⟨h.utxo, h.base, h.hashBlock, h.flagsSound hsound, h.coherent, fun _ hc => h.covers hc⟩

theorem WritesTo.trans {utxo' utxo'' : COutPoint → Option Coin} (h : WritesTo view read utxo')
    (h' : WritesTo read view' utxo'') : WritesTo view view' utxo'' where
  utxo := h'.utxo
  base := h'.base.trans h.base
  hashBlock := h'.hashBlock.trans h.hashBlock
  flagsSound := h'.flagsSound
  coherent := fun hs => h'.coherent (h.coherent hs)
  covers := fun outs hc => h'.covers outs (h.covers outs hc)

theorem clearEntry_writesTo (hsound : view.FlagsSound)
    (hlookup : view.cacheCoins.lookup outpoint = some entry) :
    WritesTo view (view.clearEntry outpoint entry)
      (update view.utxo outpoint none) := by
  cases hfresh : entry.fresh with
  | false =>
    refine ⟨?_, rfl, rfl, ?_, fun h => h.clearEntry hlookup, ?_⟩
    · simp only [clearEntry, hfresh, Bool.false_eq_true, if_false]
      rw [utxo_insert]
      simp
    · simp only [clearEntry, hfresh, Bool.false_eq_true, if_false]
      exact flagsSound_insert hsound _ (by simp)
    · intro outs hc
      simp only [clearEntry, hfresh, Bool.false_eq_true, if_false]
      exact covers_insert hc _ _
  | true =>
    -- the erased entry was fresh, so the base has nothing unspent to show
    have hbase : view.BaseSpent outpoint := hsound outpoint entry hlookup (.inl hfresh)
    refine ⟨?_, rfl, rfl, ?_, fun h => h.clearEntry hlookup, ?_⟩
    · funext o
      by_cases ho : o = outpoint
      · subst ho
        have hcoin : (view.clearEntry o entry).coinAt o = view.base.getCoin o := by
          simp [clearEntry, coinAt, hfresh]
        rw [update_self, utxo_eq_none, hcoin]
        exact hbase
      · simp [clearEntry, utxo, coinAt, hfresh, AList.lookup_erase_ne ho,
          update_of_ne ho]
    · intro o e he hflags
      simp only [clearEntry, hfresh, if_true] at he
      exact hsound o e (lookup_erase_eq_some.mp he).2 hflags
    · intro outs hc o ho hcached
      by_cases heq : o = outpoint
      · subst heq
        exact hbase
      · refine hc o ho (fun hmem => hcached ?_)
        simp only [clearEntry, hfresh, if_true]
        exact AList.mem_erase.mpr ⟨heq, hmem⟩

theorem fetchCoin_lookup (h : view.fetchCoin outpoint = (some entry, read)) :
    read.cacheCoins.lookup outpoint = some entry := by
  unfold fetchCoin at h
  cases hcache : view.cacheCoins.lookup outpoint with
  | some e =>
    rw [hcache] at h
    cases h
    exact hcache
  | none =>
    rw [hcache] at h
    cases hbase : view.base.getCoin outpoint with
    | none =>
      rw [hbase] at h
      cases h
    | some tmp =>
      rw [hbase] at h
      cases h
      simp

/-- `SpendCoin` succeeds exactly when the view has a coin there, spent or not. -/
theorem spendCoin_eq_none : view.spendCoin outpoint = none ↔ view.coinAt outpoint = none := by
  rw [← fetchCoin_coin, spendCoin]
  cases hfetch : view.fetchCoin outpoint with
  | mk found read => cases found <;> simp

theorem utxo_of_spendCoin_none (h : view.spendCoin outpoint = none) :
    view.utxo outpoint = none := by
  rw [utxo, spendCoin_eq_none.mp h]
  rfl

theorem spendCoin_writesTo (hsound : view.FlagsSound)
    (h : view.spendCoin outpoint = some (c, view')) :
    view.coinAt outpoint = some c ∧
      WritesTo view view' (update view.utxo outpoint none) := by
  have hread := fetchCoin_readsTo view outpoint
  rw [← fetchCoin_coin]
  rw [spendCoin] at h
  cases hfetch : view.fetchCoin outpoint with
  | mk found read =>
    rw [hfetch] at h hread
    cases found with
    | none => cases h
    | some entry =>
      cases h
      have hclear :=
        clearEntry_writesTo (hread.flagsSound hsound) (fetchCoin_lookup hfetch)
      rw [hread.utxo] at hclear
      exact ⟨rfl, (hread.writesTo hsound).trans hclear⟩

/-- Whether `AddCoin` finds an unspent entry in its way is whether the view has an unspent
coin there, once the outpoint is covered. -/
theorem emplacedEntry_isSpent {outs : COutPoint → Prop} (hcovers : view.Covers outs)
    (hout : outs outpoint) :
    (view.emplacedEntry outpoint).coin.isSpent = true ↔ view.utxo outpoint = none := by
  rw [utxo_eq_none, emplacedEntry]
  cases hlookup : view.cacheCoins.lookup outpoint with
  | some entry => simp [coinAt, hlookup]
  | none =>
    have hbase : view.BaseSpent outpoint :=
      hcovers outpoint hout (AList.lookup_eq_none.mp hlookup)
    have hcoin : view.coinAt outpoint = view.base.getCoin outpoint := by
      simp [coinAt, hlookup]
    rw [hcoin]
    exact iff_of_true rfl hbase

/-- The entry that is stored is marked fresh only where the base has nothing unspent. -/
theorem storeCoin_baseSpent {overwrite : Bool} {outs : COutPoint → Prop}
    (hsound : view.FlagsSound) (hcovers : view.Covers outs) (hout : outs outpoint)
    (hspent : overwrite = false → (view.emplacedEntry outpoint).coin.isSpent = true)
    (hfresh : ((view.emplacedEntry outpoint).fresh ||
      (!overwrite && !(view.emplacedEntry outpoint).dirty)) = true) : view.BaseSpent outpoint := by
  cases hlookup : view.cacheCoins.lookup outpoint with
  | none => exact hcovers outpoint hout (AList.lookup_eq_none.mp hlookup)
  | some entry =>
    have hentry : view.emplacedEntry outpoint = entry := by simp [emplacedEntry, hlookup]
    rw [hentry] at hspent hfresh
    apply hsound outpoint entry hlookup
    simp only [Bool.or_eq_true, Bool.and_eq_true, Bool.not_eq_true'] at hfresh
    exact hfresh.imp id fun h => ⟨h.2, hspent h.1⟩

theorem storeCoin_writesTo {overwrite : Bool} {outs : COutPoint → Prop}
    (hsound : view.FlagsSound) (hcovers : view.Covers outs) (hout : outs outpoint)
    (hunspent : c.isSpent = false)
    (hspent : overwrite = false → (view.emplacedEntry outpoint).coin.isSpent = true) :
    WritesTo view (view.storeCoin outpoint c overwrite)
      (update view.utxo outpoint (some c)) where
  utxo := by
    rw [storeCoin, utxo_insert]
    simp [hunspent]
  base := rfl
  hashBlock := rfl
  flagsSound := by
    apply flagsSound_insert hsound
    rintro (hfresh | ⟨hdirty, -⟩)
    · exact storeCoin_baseSpent hsound hcovers hout hspent hfresh
    · cases hdirty
  coherent := fun h =>
    h.storeCoin fun hover => (emplacedEntry_isSpent hcovers hout).mp (hspent hover)
  covers := fun _ hc => covers_insert hc _ _

theorem addCoin_unspendable (hunspent : c.isSpent = false)
    (hunspendable : isUnspendable c.out.scriptPubKey = true) (overwrite : Bool) :
    view.addCoin outpoint c overwrite = .ok view := by
  simp [addCoin, assertThat, rejectIf, hunspent, hunspendable, pure, Except.pure]

/-- Adding a spendable coin writes it, unless overwriting is not allowed and an unspent
entry is in the way. -/
theorem addCoin_spendable (hunspent : c.isSpent = false)
    (hspendable : isUnspendable c.out.scriptPubKey = false) (overwrite : Bool) :
    view.addCoin outpoint c overwrite =
      if overwrite = false ∧ (view.emplacedEntry outpoint).coin.isSpent = false then
        .error (.exception "Adding new coin that replaces non-pruned entry")
      else .ok (view.storeCoin outpoint c overwrite) := by
  by_cases h : overwrite = false ∧ (view.emplacedEntry outpoint).coin.isSpent = false
  · simp [addCoin, assertThat, rejectIf, hunspent, hspendable, h]
  · simp [addCoin, assertThat, rejectIf, hunspent, hspendable, h, pure, Except.pure]

end Writes

end CCoinsViewCache

end Verium
