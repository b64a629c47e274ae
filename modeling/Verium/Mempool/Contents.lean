import Verium.Mempool.Frame

/-!
Which transactions are in the pool, with their fees: what the operations on the pool do to its
contents, whatever they do to the statistics, the links and the list of hashes.
-/

namespace Verium

open Lib Function

/-- An entry without its statistics, its lock points and its place in the list of hashes. -/
def CTxMemPoolEntry.content (e : CTxMemPoolEntry) : CTxMemPoolEntry :=
  { e.core with lockPoints := ⟨0, 0, none⟩, vTxHashesIdx := 0 }

namespace CTxMemPool

def contents (pool : CTxMemPool) (hash : UInt256) : Option CTxMemPoolEntry :=
  (pool.mapTx.lookup hash).map CTxMemPoolEntry.content

variable {env : PoolEnv} {pool pool' pool'' : CTxMemPool}

theorem mem_mapTx_iff {hash : UInt256} :
    hash ∈ pool.mapTx ↔ (pool.contents hash).isSome = true := by
  rw [contents, Option.isSome_map, AList.lookup_isSome]

/-- The hashes of the transactions in the pool. -/
def hashes (pool : CTxMemPool) : Finset UInt256 :=
  pool.mapTx.keys.toFinset

theorem mem_hashes {hash : UInt256} : hash ∈ pool.hashes ↔ (pool.contents hash).isSome = true := by
  rw [hashes, List.mem_toFinset, ← AList.mem_keys, mem_mapTx_iff]

theorem StatsOnly.contents (h : StatsOnly pool pool') : pool'.contents = pool.contents := by
  funext hash
  exact h.map_lookup (fun _ => rfl) hash

theorem contents_popHash (pool : CTxMemPool) (idx : Nat) :
    (pool.popHash idx).contents = pool.contents := by
  funext hash
  unfold popHash
  cases pool.vTxHashes.getLast? with
  | none => rfl
  | some back =>
    dsimp only
    split
    · cases hback : pool.mapTx.lookup back.2 with
      | none => rfl
      | some eb => exact map_lookup_insert_same hback (by rfl) hash
    · rfl

theorem mapDeltas_popHash (pool : CTxMemPool) (idx : Nat) :
    (pool.popHash idx).mapDeltas = pool.mapDeltas := by
  unfold popHash
  split
  · rfl
  · split <;> rfl

theorem removeUnchecked_contents {it : UInt256} (h : pool.removeUnchecked env it = .ok pool') :
    (∀ hash, pool'.contents hash = if hash = it then none else pool.contents hash) ∧
      pool'.mapDeltas = pool.mapDeltas := by
  obtain ⟨e, -, h⟩ := bind_eq_ok.mp h
  cases h
  refine ⟨fun hash => ?_, mapDeltas_popHash _ _⟩
  rcases eq_or_ne hash it with rfl | hne
  · rw [if_pos rfl, contents, AList.lookup_erase]
    rfl
  · rw [if_neg hne]
    unfold contents
    dsimp only
    rw [AList.lookup_erase_ne hne]
    exact congrFun (contents_popHash _ _) hash

theorem removeStaged_contents {stage : SetEntries} {updateDescendants : Bool}
    (h : pool.removeStaged env stage updateDescendants = .ok pool') :
    (∀ hash, pool'.contents hash = if hash ∈ stage then none else pool.contents hash) ∧
      pool'.mapDeltas = pool.mapDeltas := by
  obtain ⟨mid, hupdate, h⟩ := bind_eq_ok.mp h
  have hstats := StatsOnly.updateForRemoveFromMempool hupdate
  rw [← hstats.contents, ← hstats.mapDeltas]
  have hloop : ∀ (l : List UInt256) (mid : CTxMemPool),
      l.foldlM (removeUnchecked env) mid = .ok pool' →
      (∀ hash, pool'.contents hash = if hash ∈ l then none else mid.contents hash) ∧
        pool'.mapDeltas = mid.mapDeltas := by
    intro l
    induction l with
    | nil =>
      intro mid h
      cases h
      simp
    | cons it rest ih =>
      intro mid h
      obtain ⟨next, hfirst, hrest⟩ := foldlM_cons_eq_ok.mp h
      obtain ⟨hcontents, hdeltas⟩ := removeUnchecked_contents hfirst
      obtain ⟨hcontents', hdeltas'⟩ := ih next hrest
      refine ⟨fun hash => ?_, hdeltas'.trans hdeltas⟩
      rw [hcontents', hcontents]
      by_cases hit : hash = it <;> by_cases hmem : hash ∈ rest <;> simp [hit, hmem]
  exact hloop stage.elems mid h

/-- Entries may be gone, and nothing else has happened to the contents. -/
structure Shrinks (pool pool' : CTxMemPool) : Prop where
  contents : ∀ hash, pool'.contents hash = none ∨ pool'.contents hash = pool.contents hash
  mapDeltas : pool'.mapDeltas = pool.mapDeltas

namespace Shrinks

theorem refl (pool : CTxMemPool) : Shrinks pool pool :=
  ⟨fun _ => .inr rfl, rfl⟩

theorem trans (h : Shrinks pool pool') (h' : Shrinks pool' pool'') : Shrinks pool pool'' where
  contents hash := by
    rcases h'.contents hash with hnone | hsame
    · exact .inl hnone
    · rw [hsame]
      exact h.contents hash
  mapDeltas := h'.mapDeltas.trans h.mapDeltas

theorem removeStaged {stage : SetEntries} {updateDescendants : Bool}
    (h : pool.removeStaged env stage updateDescendants = .ok pool') : Shrinks pool pool' := by
  obtain ⟨hcontents, hdeltas⟩ := removeStaged_contents h
  refine ⟨fun hash => ?_, hdeltas⟩
  rw [hcontents]
  split
  · exact .inl rfl
  · exact .inr rfl

theorem removeWithDescendants {txToRemove : SetEntries}
    (h : pool.removeWithDescendants env txToRemove = .ok pool') : Shrinks pool pool' := by
  obtain ⟨setAllRemoves, -, h⟩ := bind_eq_ok.mp h
  exact removeStaged h

theorem trimToSize {score : CTxMemPoolEntry → CTxMemPoolEntry → Bool} {usage : CTxMemPool → Nat}
    {sizelimit : Nat} (h : pool.trimToSize env score usage sizelimit = .ok pool') :
    Shrinks pool pool' :=
  trimToSize_invariant (I := Shrinks pool) (fun hs hremove =>
    hs.trans (removeWithDescendants hremove))
    (refl pool) h

end Shrinks

theorem contents_insertEntry {hash : UInt256} {entry : CTxMemPoolEntry} (hnew : hash ∉ pool.mapTx) :
    (pool.insertEntry hash entry).contents =
      update pool.contents hash (some entry.content) := by
  funext hash'
  unfold insertEntry contents
  rw [if_neg hnew, map_lookup_insert, update_apply]

theorem applyWaitingDelta_ok {hash : UInt256} {e : CTxMemPoolEntry}
    (he : pool.mapTx.lookup hash = some e) (hdelta : e.feeDelta = 0)
    (h : pool.applyWaitingDelta hash = .ok pool') :
    pool'.contents = update pool.contents hash
        (some { e.content with feeDelta := (pool.mapDeltas.lookup hash).getD 0 }) ∧
      pool'.mapDeltas = pool.mapDeltas := by
  have hpool : pool.applyDelta hash 0 = (pool.mapDeltas.lookup hash).getD 0 := by
    unfold applyDelta
    exact Int64.zero_add _
  unfold CTxMemPool.applyWaitingDelta at h
  dsimp only at h
  rw [hpool] at h
  split at h
  next hzero =>
    cases h
    refine ⟨?_, rfl⟩
    rw [hzero, ← hdelta, eq_comm, update_eq_self_iff, contents, he]
    rfl
  next =>
    obtain ⟨e', _, he', ⟨⟩, rfl⟩ := modify_eq_ok h
    rw [he] at he'
    cases he'
    refine ⟨?_, rfl⟩
    funext hash'
    unfold contents
    rw [map_lookup_insert, update_apply]
    rfl

theorem addUnchecked_contents {entry : CTxMemPoolEntry} {setAncestors : SetEntries}
    (hnew : entry.tx.getHash env.crypto ∉ pool.mapTx) (hdelta : entry.feeDelta = 0)
    (h : pool.addUnchecked env entry setAncestors = .ok pool') :
    pool'.contents = update pool.contents (entry.tx.getHash env.crypto)
        (some { entry.content with
          feeDelta := (pool.mapDeltas.lookup (entry.tx.getHash env.crypto)).getD 0 }) ∧
      pool'.mapDeltas = pool.mapDeltas := by
  unfold CTxMemPool.addUnchecked at h
  set newit := entry.tx.getHash env.crypto
  obtain ⟨pool₁, h₁, h⟩ := bind_eq_ok.mp h
  obtain ⟨e, -, h⟩ := bind_eq_ok.mp h
  obtain ⟨pool₂, h₂, h⟩ := bind_eq_ok.mp h
  obtain ⟨pool₃, h₃, h⟩ := bind_eq_ok.mp h
  have hinserted : (pool.insertEntry newit entry).mapTx.lookup newit = some entry := by
    unfold insertEntry
    rw [if_neg hnew, AList.lookup_insert]
  obtain ⟨hcontents₁, hdeltas₁⟩ := applyWaitingDelta_ok hinserted hdelta h₁
  obtain ⟨mapNextTx, hlinks⟩ := StatsOnly.linkParents pool₁ newit e.tx
  have hstats := (hlinks.trans (StatsOnly.updateAncestorsOf h₂)).trans
    (StatsOnly.updateEntryForAncestors h₃)
  obtain ⟨e₃, _, he₃, ⟨⟩, rfl⟩ := modify_eq_ok h
  have hpool₃ : pool₃.contents = pool₁.contents := hstats.contents
  constructor
  · have hpushed : ({ pool₃ with
        mapTx := pool₃.mapTx.insert newit { e₃ with vTxHashesIdx :=
          (pool₃.vTxHashes ++ [(e.tx.getWitnessHash env.crypto, newit)]).length - 1 }
        vTxHashes := pool₃.vTxHashes ++ [(e.tx.getWitnessHash env.crypto, newit)]
        totalTxSize := pool₃.totalTxSize + entry.getTxSize env } : CTxMemPool).contents =
        pool₃.contents := by
      funext hash
      exact map_lookup_insert_same he₃ (by rfl) hash
    refine hpushed.trans ?_
    rw [hpool₃, hcontents₁, contents_insertEntry hnew, update_idem]
    rfl
  · exact hstats.mapDeltas.trans hdeltas₁

end CTxMemPool

end Verium
