import Mathlib.Data.UInt
import Verium.Coins.Utxo

/-!
Stacks of coins caches. A cache is laid over another view, often itself a cache; a read that
misses asks the view below, which copies what it finds in turn, and `Flush` writes the changes
of the top cache into the view below.
-/

namespace Verium

open Lib

namespace CCoinsViewCache

/-- `Uncache`: drop an entry that has no flags. -/
def uncache (view : CCoinsViewCache) (outpoint : COutPoint) : CCoinsViewCache :=
  match view.cacheCoins.lookup outpoint with
  | none => view
  | some entry =>
      if entry.dirty || entry.fresh then view
      else
        { view with
          cacheCoins := view.cacheCoins.erase outpoint
          cachedCoinsUsage := view.cachedCoinsUsage - entry.coin.dynamicMemoryUsage }

/-- The body of the loop of `BatchWrite`, for an entry of the cache above. -/
def batchWriteEntry (view : CCoinsViewCache) (it : (_ : COutPoint) × CCoinsCacheEntry) :
    Result CCoinsViewCache := do
  if ¬ it.2.dirty then return view
  match view.cacheCoins.lookup it.1 with
  | none =>
      if it.2.fresh ∧ it.2.coin.isSpent then return view
      return { view with
        cacheCoins := view.cacheCoins.insert it.1 ⟨it.2.coin, true, it.2.fresh⟩
        cachedCoinsUsage := view.cachedCoinsUsage + it.2.coin.dynamicMemoryUsage }
  | some itUs =>
      rejectIf (it.2.fresh ∧ ¬ itUs.coin.isSpent) (.exception
        "FRESH flag misapplied to cache entry for base transaction with spendable outputs")
      let cachedCoinsUsage := view.cachedCoinsUsage - itUs.coin.dynamicMemoryUsage
      if itUs.fresh ∧ it.2.coin.isSpent then
        return { view with cacheCoins := view.cacheCoins.erase it.1, cachedCoinsUsage }
      return { view with
        cacheCoins := view.cacheCoins.insert it.1 ⟨it.2.coin, true, itUs.fresh⟩
        cachedCoinsUsage := cachedCoinsUsage + it.2.coin.dynamicMemoryUsage }

/-- `BatchWrite(mapCoins, hashBlock)`, with the entries in the order of the hash map. -/
def batchWrite (view : CCoinsViewCache) (mapCoins : List ((_ : COutPoint) × CCoinsCacheEntry))
    (hashBlockIn : UInt256) : Result CCoinsViewCache := do
  let view ← mapCoins.foldlM batchWriteEntry view
  return { view with hashBlock := hashBlockIn }

end CCoinsViewCache

/-- What a cache holds besides the pointer to its base. -/
structure CoinsLayer where
  hashBlock : UInt256
  cacheCoins : CCoinsMap
  cachedCoinsUsage : UInt64

/-- A new cache. -/
def CoinsLayer.empty : CoinsLayer := ⟨0, ∅, 0⟩

/-- The layer as a cache over a view. -/
def CoinsLayer.over (layer : CoinsLayer) (base : CCoinsView) : CCoinsViewCache :=
  ⟨base, layer.hashBlock, layer.cacheCoins, layer.cachedCoinsUsage⟩

def CCoinsViewCache.layer (view : CCoinsViewCache) : CoinsLayer :=
  ⟨view.hashBlock, view.cacheCoins, view.cachedCoinsUsage⟩

/-- What lies below a cache: a plain view, or another cache. -/
inductive CoinsBacking where
  | plain (base : CCoinsView)
  | cache (layer : CoinsLayer) (below : CoinsBacking)

namespace CoinsBacking

/-- The layers of caches, from the top. -/
def layers : CoinsBacking → List CoinsLayer
  | .plain _ => []
  | .cache layer below => layer :: below.layers

def getBestBlock : CoinsBacking → UInt256
  | .plain base => base.getBestBlock
  | .cache layer below => if layer.hashBlock = 0 then below.getBestBlock else layer.hashBlock

/-- `GetCoin` through the backing. A cache asks further down only for what it does not hold, and
what it asks copies the coin in turn. -/
def getCoin : CoinsBacking → COutPoint → Option Coin × CoinsBacking
  | .plain base, outpoint => (base.getCoin outpoint, .plain base)
  | .cache layer below, outpoint =>
      let base : CCoinsView := ⟨fun o => (below.getCoin o).1, below.getBestBlock⟩
      let (coin, view) := (layer.over base).getCoin outpoint
      let asked := if outpoint ∈ layer.cacheCoins then below else (below.getCoin outpoint).2
      (coin, .cache view.layer asked)

/-- What a backing answers, as a view. -/
def asView (backing : CoinsBacking) : CCoinsView :=
  ⟨fun outpoint => (backing.getCoin outpoint).1, backing.getBestBlock⟩

/-- The backing after the cache above has been asked for an outpoint. -/
def askedBy (backing : CoinsBacking) (layer : CoinsLayer) (outpoint : COutPoint) : CoinsBacking :=
  if outpoint ∈ layer.cacheCoins then backing else (backing.getCoin outpoint).2

end CoinsBacking

/-- The order in which a hash map is gone through. -/
structure HashOrder where
  visit : CCoinsMap → List ((_ : COutPoint) × CCoinsCacheEntry)
  perm : ∀ mapCoins, (visit mapCoins).Perm mapCoins.entries

/-- One entry of `BatchWrite` on a view that keeps its coins in a plain map: a dirty entry
replaces what is there, and a spent one erases it. -/
def CCoinsView.writeEntry (view : CCoinsView) (it : (_ : COutPoint) × CCoinsCacheEntry) :
    CCoinsView :=
  if it.2.dirty then
    let found := if it.2.coin.isSpent then none else some it.2.coin
    { view with getCoin := Function.update view.getCoin it.1 found }
  else view

def CoinsBacking.batchWrite (mapCoins : List ((_ : COutPoint) × CCoinsCacheEntry))
    (hashBlock : UInt256) : CoinsBacking → Result CoinsBacking
  | .plain base =>
      let base := mapCoins.foldl CCoinsView.writeEntry base
      .ok (.plain { base with getBestBlock := hashBlock })
  | .cache layer below => do
      let view ← (layer.over below.asView).batchWrite mapCoins hashBlock
      return .cache view.layer below

/-- A cache and all that lies below it. -/
structure CoinsStack where
  top : CoinsLayer
  below : CoinsBacking

namespace CoinsStack

/-- A new cache over a plain view. -/
def new (base : CCoinsView) : CoinsStack :=
  ⟨.empty, .plain base⟩

/-- The layers of caches, from the top. -/
def layers (s : CoinsStack) : List CoinsLayer :=
  s.top :: s.below.layers

/-- The top cache with its base. -/
def view (s : CoinsStack) : CCoinsViewCache :=
  s.top.over s.below.asView

def getCoin (s : CoinsStack) (outpoint : COutPoint) : Option Coin × CoinsStack :=
  let (coin, view) := s.view.getCoin outpoint
  (coin, ⟨view.layer, s.below.askedBy s.top outpoint⟩)

def haveCoin (s : CoinsStack) (outpoint : COutPoint) : Bool × CoinsStack :=
  let (found, view) := s.view.haveCoin outpoint
  (found, ⟨view.layer, s.below.askedBy s.top outpoint⟩)

def accessCoin (s : CoinsStack) (outpoint : COutPoint) : Coin × CoinsStack :=
  let (coin, view) := s.view.accessCoin outpoint
  (coin, ⟨view.layer, s.below.askedBy s.top outpoint⟩)

def spendCoin (s : CoinsStack) (outpoint : COutPoint) : Option Coin × CoinsStack :=
  let below := s.below.askedBy s.top outpoint
  match s.view.spendCoin outpoint with
  | none => (none, ⟨s.top, below⟩)
  | some (coin, view) => (some coin, ⟨view.layer, below⟩)

def addCoin (s : CoinsStack) (outpoint : COutPoint) (coin : Coin) (possibleOverwrite : Bool) :
    Result CoinsStack := do
  let view ← s.view.addCoin outpoint coin possibleOverwrite
  return ⟨view.layer, s.below⟩

def uncache (s : CoinsStack) (outpoint : COutPoint) : CoinsStack :=
  ⟨(s.view.uncache outpoint).layer, s.below⟩

def setBestBlock (s : CoinsStack) (hashBlock : UInt256) : CoinsStack :=
  ⟨(s.view.setBestBlock hashBlock).layer, s.below⟩

/-- `Flush` of the top cache, which is empty afterwards. -/
def flush (s : CoinsStack) (order : HashOrder) : Result CoinsStack := do
  let below ← s.below.batchWrite (order.visit s.top.cacheCoins) s.top.hashBlock
  return ⟨{ s.top with cacheCoins := ∅, cachedCoinsUsage := 0 }, below⟩

end CoinsStack

/-- The calls on the top of a stack. -/
inductive CoinsOp where
  | addCoin (outpoint : COutPoint) (coin : Coin) (possibleOverwrite : Bool)
  | spendCoin (outpoint : COutPoint)
  | getCoin (outpoint : COutPoint)
  | haveCoin (outpoint : COutPoint)
  | accessCoin (outpoint : COutPoint)
  | uncache (outpoint : COutPoint)
  | setBestBlock (hashBlock : UInt256)
  | flush (order : HashOrder)
  /-- Lay a new cache on top. -/
  | push

def CoinsStack.step (s : CoinsStack) : CoinsOp → Result CoinsStack
  | .addCoin outpoint coin possibleOverwrite => s.addCoin outpoint coin possibleOverwrite
  | .spendCoin outpoint => .ok (s.spendCoin outpoint).2
  | .getCoin outpoint => .ok (s.getCoin outpoint).2
  | .haveCoin outpoint => .ok (s.haveCoin outpoint).2
  | .accessCoin outpoint => .ok (s.accessCoin outpoint).2
  | .uncache outpoint => .ok (s.uncache outpoint)
  | .setBestBlock hashBlock => .ok (s.setBestBlock hashBlock)
  | .flush order => s.flush order
  | .push => .ok ⟨.empty, .cache s.top s.below⟩

end Verium
