import Mathlib.Data.List.AList
import Verium.Primitives.Transaction
import Verium.Script.Script

/-!
The coins cache. `CCoinsViewCache` keeps entries that override a base view; reading a coin
copies it from the base into the cache, so even the const methods return a changed view.
What the cache stands for is the function `utxo`, the unspent coin at each outpoint, and
each operation is described by what it does to that function.
-/

namespace Verium

open Lib

/-- `class Coin`. The height is a 31-bit field. -/
structure Coin where
  out : CTxOut
  fCoinBase : Bool
  nHeight : Nat
deriving DecidableEq, Repr

/-- `memusage::MallocUsage` on a 64-bit system. -/
def mallocUsage (alloc : Nat) : Nat :=
  if alloc = 0 then 0 else (alloc + 31) / 16 * 16

namespace Coin

/-- `Coin()` and `Clear()`. -/
def empty : Coin := ⟨CTxOut.null, false, 0⟩

/-- `Coin(out, nHeight, fCoinBase)`. -/
def ofTxOut (out : CTxOut) (nHeight : Nat) (fCoinBase : Bool) : Coin :=
  ⟨out, fCoinBase, nHeight % 2 ^ 31⟩

def isSpent (c : Coin) : Bool :=
  c.out.isNull

/-- The heap part of the script: scripts of up to 28 bytes are stored in place. -/
def dynamicMemoryUsage (c : Coin) : UInt64 :=
  let size := c.out.scriptPubKey.length
  UInt64.ofNat (mallocUsage (if size ≤ 28 then 0 else size))

@[simp]
theorem isSpent_empty : empty.isSpent = true :=
  rfl

end Coin

/-- A view that can be asked for coins: the base of a cache. -/
structure CCoinsView where
  getCoin : COutPoint → Option Coin
  getBestBlock : UInt256

/-- `struct CCoinsCacheEntry`; the two bits of `flags` are `dirty` and `fresh`. -/
structure CCoinsCacheEntry where
  coin : Coin
  dirty : Bool
  fresh : Bool
deriving DecidableEq, Repr

/-- A default-constructed entry, as `emplace` with no arguments creates it. -/
def CCoinsCacheEntry.empty : CCoinsCacheEntry := ⟨Coin.empty, false, false⟩

abbrev CCoinsMap := AList fun _ : COutPoint => CCoinsCacheEntry

structure CCoinsViewCache where
  base : CCoinsView
  hashBlock : UInt256
  cacheCoins : CCoinsMap
  cachedCoinsUsage : UInt64

namespace CCoinsViewCache

/-- `FetchCoin`: the entry of the cache, copied from the base when it is missing. -/
def fetchCoin (view : CCoinsViewCache) (outpoint : COutPoint) :
    Option CCoinsCacheEntry × CCoinsViewCache :=
  match view.cacheCoins.lookup outpoint with
  | some entry => (some entry, view)
  | none =>
      match view.base.getCoin outpoint with
      | none => (none, view)
      | some tmp =>
          -- a spent coin in the base makes this entry fresh
          let entry : CCoinsCacheEntry := ⟨tmp, false, tmp.isSpent⟩
          (some entry,
            { view with
              cacheCoins := view.cacheCoins.insert outpoint entry
              cachedCoinsUsage := view.cachedCoinsUsage + tmp.dynamicMemoryUsage })

def getCoin (view : CCoinsViewCache) (outpoint : COutPoint) : Option Coin × CCoinsViewCache :=
  let (entry, view) := view.fetchCoin outpoint
  ((entry.map CCoinsCacheEntry.coin).filter fun c => !c.isSpent, view)

def accessCoin (view : CCoinsViewCache) (outpoint : COutPoint) : Coin × CCoinsViewCache :=
  let (entry, view) := view.fetchCoin outpoint
  ((entry.map CCoinsCacheEntry.coin).getD Coin.empty, view)

def haveCoin (view : CCoinsViewCache) (outpoint : COutPoint) : Bool × CCoinsViewCache :=
  let (entry, view) := view.fetchCoin outpoint
  (entry.any fun e => !e.coin.isSpent, view)

def getBestBlock (view : CCoinsViewCache) : UInt256 :=
  if view.hashBlock = 0 then view.base.getBestBlock else view.hashBlock

def setBestBlock (view : CCoinsViewCache) (hashBlockIn : UInt256) : CCoinsViewCache :=
  { view with hashBlock := hashBlockIn }

/-- The entry `AddCoin` works on: the existing one, or the empty one it emplaces. -/
def emplacedEntry (view : CCoinsViewCache) (outpoint : COutPoint) : CCoinsCacheEntry :=
  (view.cacheCoins.lookup outpoint).getD CCoinsCacheEntry.empty

/-- The writing half of `AddCoin`. The entry becomes dirty, and fresh if overwriting was
excluded and the old entry was not dirty. -/
def storeCoin (view : CCoinsViewCache) (outpoint : COutPoint) (coin : Coin)
    (possibleOverwrite : Bool) : CCoinsViewCache :=
  let entry := view.emplacedEntry outpoint
  let usage :=
    if outpoint ∈ view.cacheCoins then
      view.cachedCoinsUsage - entry.coin.dynamicMemoryUsage
    else view.cachedCoinsUsage
  let fresh := !possibleOverwrite && !entry.dirty
  { view with
    cacheCoins := view.cacheCoins.insert outpoint ⟨coin, true, entry.fresh || fresh⟩
    cachedCoinsUsage := usage + coin.dynamicMemoryUsage }

def addCoin (view : CCoinsViewCache) (outpoint : COutPoint) (coin : Coin)
    (possibleOverwrite : Bool) : Result CCoinsViewCache := do
  assertThat (¬ coin.isSpent) "!coin.IsSpent()"
  if isUnspendable coin.out.scriptPubKey then return view
  rejectIf (¬ possibleOverwrite ∧ ¬ (view.emplacedEntry outpoint).coin.isSpent)
    (.exception "Adding new coin that replaces non-pruned entry")
  return view.storeCoin outpoint coin possibleOverwrite

/-- The second half of `SpendCoin`: a fresh entry is erased, any other one is cleared and
marked dirty. -/
def clearEntry (view : CCoinsViewCache) (outpoint : COutPoint) (entry : CCoinsCacheEntry) :
    CCoinsViewCache :=
  { view with
    cacheCoins :=
      if entry.fresh then view.cacheCoins.erase outpoint
      else view.cacheCoins.insert outpoint ⟨Coin.empty, true, false⟩
    cachedCoinsUsage := view.cachedCoinsUsage - entry.coin.dynamicMemoryUsage }

/-- `SpendCoin(outpoint, moveout)`: the coin moved out, or `none` for the result false. A
spent entry that is still in the cache counts as found. -/
def spendCoin (view : CCoinsViewCache) (outpoint : COutPoint) : Option (Coin × CCoinsViewCache) :=
  match view.fetchCoin outpoint with
  | (none, _) => none
  | (some entry, view) => some (entry.coin, view.clearEntry outpoint entry)

/-- The loop of `AddCoins`, over the outputs with their indices. -/
def addOutput (crypto : Crypto) (tx : CTransaction) (nHeight : Nat) (check : Bool)
    (view : CCoinsViewCache) (output : CTxOut × Nat) : Result CCoinsViewCache :=
  let fCoinbase := tx.isCoinBase
  let outpoint := tx.outPoint crypto output.2
  let (overwrite, view) := if check then view.haveCoin outpoint else (fCoinbase, view)
  view.addCoin outpoint (Coin.ofTxOut output.1 nHeight fCoinbase) overwrite

def addCoins (crypto : Crypto) (view : CCoinsViewCache) (tx : CTransaction)
    (nHeight : Nat) (check : Bool) : Result CCoinsViewCache :=
  tx.vout.zipIdx.foldlM (addOutput crypto tx nHeight check) view

/-- One turn of the loop of `GetValueIn`. -/
def addValueIn : CAmount × CCoinsViewCache → CTxIn → CAmount × CCoinsViewCache
  | (nResult, view), txin =>
      let (coin, view) := view.accessCoin txin.prevout
      (nResult + coin.out.nValue, view)

/-- `GetValueIn`. A missing coin contributes the null value, minus one. -/
def getValueIn (view : CCoinsViewCache) (tx : CTransaction) : CAmount × CCoinsViewCache :=
  if tx.isCoinBase then (0, view) else tx.vin.foldl addValueIn (0, view)

/-- The loop of `HaveInputs`, which stops at the first missing coin. -/
def haveCoins : CCoinsViewCache → List CTxIn → Bool × CCoinsViewCache
  | view, [] => (true, view)
  | view, txin :: rest =>
      let (found, view) := view.haveCoin txin.prevout
      if found then haveCoins view rest else (false, view)

def haveInputs (view : CCoinsViewCache) (tx : CTransaction) : Bool × CCoinsViewCache :=
  if tx.isCoinBase then (true, view) else haveCoins view tx.vin

end CCoinsViewCache

end Verium
