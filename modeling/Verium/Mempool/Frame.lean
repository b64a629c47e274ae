import Verium.Lib.Lists
import Verium.Mempool.FromBlock

/-!
What the functions that keep the statistics and the links leave alone: which transactions are in
the pool, and everything in their entries that is not a statistic.
-/

namespace Verium

open Lib

/-- An entry without its statistics. -/
def CTxMemPoolEntry.core (e : CTxMemPoolEntry) : CTxMemPoolEntry :=
  { e with
    nCountWithDescendants := 0
    nSizeWithDescendants := 0
    nModFeesWithDescendants := 0
    nCountWithAncestors := 0
    nSizeWithAncestors := 0
    nModFeesWithAncestors := 0
    nSigOpCostWithAncestors := 0 }

namespace CTxMemPool

/-- Only statistics and links are different. -/
structure StatsOnly (pool pool' : CTxMemPool) : Prop where
  entries : ∀ hash, (pool'.mapTx.lookup hash).map CTxMemPoolEntry.core =
    (pool.mapTx.lookup hash).map CTxMemPoolEntry.core
  mapNextTx : pool'.mapNextTx = pool.mapNextTx
  mapDeltas : pool'.mapDeltas = pool.mapDeltas
  vTxHashes : pool'.vTxHashes = pool.vTxHashes
  totalTxSize : pool'.totalTxSize = pool.totalTxSize

variable {env : PoolEnv} {pool pool' pool'' : CTxMemPool}

theorem deref_eq_ok {it : UInt256} {e : CTxMemPoolEntry} :
    pool.deref it = .ok e ↔ pool.mapTx.lookup it = some e := by
  unfold deref
  cases pool.mapTx.lookup it <;> simp

theorem modify_eq_ok {it : UInt256} {f : CTxMemPoolEntry → Result CTxMemPoolEntry}
    (h : pool.modify it f = .ok pool') : ∃ e e', pool.mapTx.lookup it = some e ∧ f e = .ok e' ∧
      pool' = { pool with mapTx := pool.mapTx.insert it e' } := by
  obtain ⟨e, he, h⟩ := bind_eq_ok.mp h
  obtain ⟨e', he', h⟩ := bind_eq_ok.mp h
  cases h
  exact ⟨e, e', deref_eq_ok.mp he, he', rfl⟩

/-- What every removal keeps is kept when the pool is trimmed. -/
theorem trimToSize_invariant {I : CTxMemPool → Prop}
    (hremove : ∀ {s t stage}, I s → s.removeWithDescendants env stage = .ok t → I t)
    {score : CTxMemPoolEntry → CTxMemPoolEntry → Bool} {usage : CTxMemPool → Nat} {sizelimit : Nat}
    (h : I pool) (htrim : pool.trimToSize env score usage sizelimit = .ok pool') : I pool' := by
  unfold trimToSize at htrim
  generalize pool.mapTx.keys.length = fuel at htrim
  induction fuel generalizing pool with
  | zero =>
    cases htrim
    exact h
  | succ fuel ih =>
    unfold trimLoop at htrim
    split at htrim
    · cases htrim
      exact h
    · split at htrim
      · obtain ⟨next, hfirst, htrim⟩ := bind_eq_ok.mp htrim
        exact ih (hremove h hfirst) htrim
      · cases htrim
        exact h

namespace StatsOnly

/-- Whatever does not look at the statistics finds the same entries. -/
theorem map_lookup {β : Type} {f : CTxMemPoolEntry → β} (h : StatsOnly pool pool')
    (hf : ∀ e, f e.core = f e) (hash : UInt256) :
    (pool'.mapTx.lookup hash).map f = (pool.mapTx.lookup hash).map f := by
  have hcore : f ∘ CTxMemPoolEntry.core = f := funext hf
  rw [← hcore, ← Option.map_map, h.entries, Option.map_map]

theorem refl (pool : CTxMemPool) : StatsOnly pool pool :=
  ⟨fun _ => rfl, rfl, rfl, rfl, rfl⟩

theorem trans (h : StatsOnly pool pool') (h' : StatsOnly pool' pool'') : StatsOnly pool pool'' where
  entries hash := (h'.entries hash).trans (h.entries hash)
  mapNextTx := h'.mapNextTx.trans h.mapNextTx
  mapDeltas := h'.mapDeltas.trans h.mapDeltas
  vTxHashes := h'.vTxHashes.trans h.vTxHashes
  totalTxSize := h'.totalTxSize.trans h.totalTxSize

theorem foldlM {α : Type} {f : CTxMemPool → α → Result CTxMemPool} {l : List α}
    (hf : ∀ pool a pool', f pool a = .ok pool' → StatsOnly pool pool')
    (h : l.foldlM f pool = .ok pool') : StatsOnly pool pool' :=
  foldlM_invariant (I := StatsOnly pool) (fun a _ s t hs ht => hs.trans (hf s a t ht)) (refl pool) h

theorem foldl {α : Type} {f : CTxMemPool → α → CTxMemPool} (l : List α)
    (hf : ∀ pool a, StatsOnly pool (f pool a)) : StatsOnly pool (l.foldl f pool) := by
  induction l generalizing pool with
  | nil => exact refl pool
  | cons a rest ih => exact (hf pool a).trans ih

theorem updateChild (pool : CTxMemPool) (entry child : UInt256) (add : Bool) :
    StatsOnly pool (pool.updateChild entry child add) :=
  ⟨fun _ => rfl, rfl, rfl, rfl, rfl⟩

theorem updateParent (pool : CTxMemPool) (entry parent : UInt256) (add : Bool) :
    StatsOnly pool (pool.updateParent entry parent add) :=
  ⟨fun _ => rfl, rfl, rfl, rfl, rfl⟩

theorem modify {it : UInt256} {f : CTxMemPoolEntry → Result CTxMemPoolEntry}
    (hf : ∀ e e', f e = .ok e' → e'.core = e.core) (h : pool.modify it f = .ok pool') :
    StatsOnly pool pool' := by
  obtain ⟨e, e', he, he', rfl⟩ := modify_eq_ok h
  exact ⟨map_lookup_insert_same he (hf e e' he'), rfl, rfl, rfl, rfl⟩

theorem modifyAll {its : SetEntries} {f : CTxMemPoolEntry → Result CTxMemPoolEntry}
    (hf : ∀ e e', f e = .ok e' → e'.core = e.core) (h : pool.modifyAll its f = .ok pool') :
    StatsOnly pool pool' :=
  foldlM (fun _ _ _ => modify hf) h

end StatsOnly

theorem core_updateDescendantState {modifySize modifyCount : Int64} {modifyFee : CAmount}
    (e e' : CTxMemPoolEntry)
    (h : e.updateDescendantState modifySize modifyFee modifyCount = .ok e') : e'.core = e.core := by
  obtain ⟨⟨⟩, -, h⟩ := bind_eq_ok.mp h
  obtain ⟨⟨⟩, -, h⟩ := bind_eq_ok.mp h
  cases h
  rfl

theorem core_updateAncestorState {modifySize modifyCount modifySigOps : Int64}
    {modifyFee : CAmount} (e e' : CTxMemPoolEntry)
    (h : e.updateAncestorState modifySize modifyFee modifyCount modifySigOps = .ok e') :
    e'.core = e.core := by
  obtain ⟨⟨⟩, -, h⟩ := bind_eq_ok.mp h
  obtain ⟨⟨⟩, -, h⟩ := bind_eq_ok.mp h
  obtain ⟨⟨⟩, -, h⟩ := bind_eq_ok.mp h
  cases h
  rfl

namespace StatsOnly

theorem updateAncestorsOf {add : Bool} {it : UInt256} {setAncestors : SetEntries}
    (h : pool.updateAncestorsOf env add it setAncestors = .ok pool') : StatsOnly pool pool' := by
  obtain ⟨parentIters, -, h⟩ := bind_eq_ok.mp h
  obtain ⟨e, -, h⟩ := bind_eq_ok.mp h
  have hlinks : StatsOnly pool
      (parentIters.elems.foldl (fun pool piter => pool.updateChild piter it add) pool) :=
    foldl _ fun pool piter => updateChild pool piter it add
  exact hlinks.trans (modifyAll core_updateDescendantState h)

theorem updateEntryForAncestors {it : UInt256} {setAncestors : SetEntries}
    (h : pool.updateEntryForAncestors env it setAncestors = .ok pool') : StatsOnly pool pool' := by
  obtain ⟨ancestors, -, h⟩ := bind_eq_ok.mp h
  exact modify core_updateAncestorState h

theorem updateChildrenForRemoval {it : UInt256}
    (h : pool.updateChildrenForRemoval it = .ok pool') : StatsOnly pool pool' := by
  obtain ⟨setMemPoolChildren, -, h⟩ := bind_eq_ok.mp h
  cases h
  exact foldl _ fun pool updateIt => updateParent pool updateIt it false

theorem removeFromDescendants {removeIt : UInt256}
    (h : pool.removeFromDescendants env removeIt = .ok pool') : StatsOnly pool pool' := by
  obtain ⟨setDescendants, -, h⟩ := bind_eq_ok.mp h
  obtain ⟨e, -, h⟩ := bind_eq_ok.mp h
  exact modifyAll core_updateAncestorState h

theorem removeFromAncestors {removeIt : UInt256}
    (h : pool.removeFromAncestors env removeIt = .ok pool') : StatsOnly pool pool' := by
  obtain ⟨setAncestors, -, h⟩ := bind_eq_ok.mp h
  exact updateAncestorsOf h

theorem updateForRemoveFromMempool {entriesToRemove : SetEntries} {updateDescendants : Bool}
    (h : pool.updateForRemoveFromMempool env entriesToRemove updateDescendants = .ok pool') :
    StatsOnly pool pool' := by
  obtain ⟨pool₁, h₁, h⟩ := bind_eq_ok.mp h
  obtain ⟨pool₂, h₂, h₃⟩ := bind_eq_ok.mp h
  have hstats₁ : StatsOnly pool pool₁ := by
    cases updateDescendants with
    | true => exact foldlM (fun _ _ _ => removeFromDescendants) h₁
    | false =>
      cases h₁
      exact refl pool
  have hstats₂ : StatsOnly pool₁ pool₂ := foldlM (fun _ _ _ => removeFromAncestors) h₂
  have hstats₃ : StatsOnly pool₂ pool' := foldlM (fun _ _ _ => updateChildrenForRemoval) h₃
  exact (hstats₁.trans hstats₂).trans hstats₃

theorem linkParents (pool : CTxMemPool) (newit : UInt256) (tx : CTransaction) :
    ∃ mapNextTx, StatsOnly { pool with mapNextTx } (pool.linkParents newit tx) := by
  have hspent : ∀ vin : List CTxIn, ∃ mapNextTx,
      vin.foldl (spendOutpoint tx) pool = { pool with mapNextTx } := by
    intro vin
    induction vin using List.reverseRecOn with
    | nil => exact ⟨_, rfl⟩
    | append_singleton rest txin ih =>
      obtain ⟨mapNextTx, hrest⟩ := ih
      rw [List.foldl_append, hrest]
      exact ⟨_, rfl⟩
  obtain ⟨mapNextTx, hvin⟩ := hspent tx.vin
  refine ⟨mapNextTx, ?_⟩
  rw [← hvin]
  exact foldl _ fun p pit => updateParent p newit pit true

theorem linkChild {setAlreadyIncluded : List UInt256} {it childIter : UInt256}
    (h : CTxMemPool.linkChild setAlreadyIncluded it pool childIter = .ok pool') :
    StatsOnly pool pool' := by
  obtain ⟨⟨⟩, -, h⟩ := bind_eq_ok.mp h
  cases h
  split
  · exact refl pool
  · exact (updateChild pool it childIter true).trans (updateParent _ childIter it true)

theorem updateForDescendants {updateIt : UInt256} {cache : CacheMap} {setExclude : List UInt256}
    {state : CacheMap × CTxMemPool}
    (h : pool.updateForDescendants env updateIt cache setExclude = .ok state) :
    StatsOnly pool state.2 := by
  obtain ⟨stageEntries, -, h⟩ := bind_eq_ok.mp h
  obtain ⟨setAllDescendants, -, h⟩ := bind_eq_ok.mp h
  obtain ⟨descendants, -, h⟩ := bind_eq_ok.mp h
  obtain ⟨e, -, h⟩ := bind_eq_ok.mp h
  obtain ⟨pool₁, h₁, h⟩ := bind_eq_ok.mp h
  obtain ⟨pool₂, h₂, h⟩ := bind_eq_ok.mp h
  cases h
  exact (modifyAll core_updateAncestorState h₁).trans (modify core_updateDescendantState h₂)

theorem updateTransaction {setAlreadyIncluded : List UInt256} {state state' : CacheMap × CTxMemPool}
    {hash : UInt256}
    (h : CTxMemPool.updateTransaction env setAlreadyIncluded state hash = .ok state') :
    StatsOnly state.2 state'.2 := by
  unfold CTxMemPool.updateTransaction at h
  dsimp only at h
  split at h
  · obtain ⟨pool₁, hlinks, h⟩ := bind_eq_ok.mp h
    exact (foldlM (fun _ _ _ => linkChild) hlinks).trans (updateForDescendants h)
  · cases h
    exact refl state.2

/-- Relinking the children of returned transactions moves no entry in or out. -/
theorem updateTransactionsFromBlock {vHashesToUpdate : List UInt256}
    (h : pool.updateTransactionsFromBlock env vHashesToUpdate = .ok pool') :
    StatsOnly pool pool' := by
  obtain ⟨⟨cache, pool₁⟩, hloop, h⟩ := bind_eq_ok.mp h
  cases h
  exact foldlM_invariant (I := fun state : CacheMap × CTxMemPool => StatsOnly pool state.2)
    (fun hash _ s t hs ht => hs.trans (updateTransaction ht)) (refl pool) hloop

end StatsOnly

end CTxMemPool

end Verium
