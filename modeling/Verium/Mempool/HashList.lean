import Verium.Lib.BackPointers
import Verium.Lib.Iteration
import Verium.Mempool.Frame

/-!
`vTxHashes` lists the entries of the pool, and every entry knows its place in the list. Only
`addUnchecked` and `removeUnchecked` change the list; what the other functions keep is said once
(`Kept`).
-/

namespace Verium

open Lib

namespace CTxMemPool

variable (env : PoolEnv)

/-- Where an element of `vTxHashes` should stand, according to the entry it points at. -/
def hashPlace (pool : CTxMemPool) (listed : UInt256 × UInt256) : Option Nat :=
  match pool.mapTx.lookup listed.2 with
  | some e => if e.tx.getWitnessHash env.crypto = listed.1 then some e.vTxHashesIdx else none
  | none => none

theorem hashPlace_eq_some {env : PoolEnv} {pool : CTxMemPool} {listed : UInt256 × UInt256}
    {i : Nat} : pool.hashPlace env listed = some i ↔ ∃ e, pool.mapTx.lookup listed.2 = some e ∧
      e.tx.getWitnessHash env.crypto = listed.1 ∧ e.vTxHashesIdx = i := by
  unfold hashPlace
  cases pool.mapTx.lookup listed.2 <;> simp

/-- The list and the entries are in bijection. -/
def HashesTracked (pool : CTxMemPool) : Prop :=
  Placed pool.vTxHashes (pool.hashPlace env)

theorem HashesTracked.bijection {env : PoolEnv} {pool : CTxMemPool} (h : pool.HashesTracked env) :
    (∀ hash e, pool.mapTx.lookup hash = some e →
      pool.vTxHashes[e.vTxHashesIdx]? = some (e.tx.getWitnessHash env.crypto, hash)) ∧
    ∀ (i : Nat) listed, pool.vTxHashes[i]? = some listed →
      ∃ e, pool.mapTx.lookup listed.2 = some e ∧ e.vTxHashesIdx = i := by
  constructor
  · intro hash e he
    exact (h _ _).mp (hashPlace_eq_some.mpr ⟨e, he, rfl, rfl⟩)
  · intro i listed hlisted
    obtain ⟨e, he, -, hidx⟩ := hashPlace_eq_some.mp ((h listed i).mpr hlisted)
    exact ⟨e, he, hidx⟩

section Kept

/-- What the list depends on in an entry. -/
def place (e : CTxMemPoolEntry) : CTransaction × Nat :=
  (e.tx, e.vTxHashesIdx)

/-- The list is the same, and the entries are those of the same transactions in the same places. -/
structure Kept (pool pool' : CTxMemPool) : Prop where
  vTxHashes : pool'.vTxHashes = pool.vTxHashes
  entries : ∀ hash, (pool'.mapTx.lookup hash).map place = (pool.mapTx.lookup hash).map place

variable {env} {pool pool' pool'' : CTxMemPool}

theorem Kept.refl (pool : CTxMemPool) : Kept pool pool :=
  ⟨rfl, fun _ => rfl⟩

theorem Kept.trans (h : Kept pool pool') (h' : Kept pool' pool'') : Kept pool pool'' :=
  ⟨h'.vTxHashes.trans h.vTxHashes, fun hash => (h'.entries hash).trans (h.entries hash)⟩

theorem Kept.of_mapTx (hhashes : pool'.vTxHashes = pool.vTxHashes)
    (hmap : pool'.mapTx = pool.mapTx) :
    Kept pool pool' :=
  ⟨hhashes, fun hash => by rw [hmap]⟩

theorem Kept.clearPrioritisation (pool : CTxMemPool) (hash : UInt256) :
    Kept pool (pool.clearPrioritisation hash) :=
  Kept.of_mapTx rfl rfl

theorem Kept.hashPlace (h : Kept pool pool') : pool'.hashPlace env = pool.hashPlace env := by
  funext listed
  have hplace : ∀ p : CTxMemPool, p.hashPlace env listed =
      ((p.mapTx.lookup listed.2).map place).bind fun stands =>
        if stands.1.getWitnessHash env.crypto = listed.1 then some stands.2 else none := by
    intro p
    unfold CTxMemPool.hashPlace
    cases p.mapTx.lookup listed.2 <;> rfl
  rw [hplace, hplace, h.entries]

theorem Kept.tracked (h : Kept pool pool') (htracked : pool.HashesTracked env) :
    pool'.HashesTracked env := by
  unfold HashesTracked
  rw [h.vTxHashes, h.hashPlace]
  exact htracked

theorem StatsOnly.kept (h : StatsOnly pool pool') : Kept pool pool' :=
  ⟨h.vTxHashes, h.map_lookup fun _ => rfl⟩

theorem Kept.modify_updateFeeDelta {it : UInt256} {delta : Int64}
    (h : pool.modify it (fun e => .ok (e.updateFeeDelta delta)) = .ok pool') : Kept pool pool' := by
  obtain ⟨e, _, he, ⟨⟩, rfl⟩ := modify_eq_ok h
  exact ⟨rfl, map_lookup_insert_same he (by rfl)⟩

theorem Kept.prioritiseTransaction {hash : UInt256} {nFeeDelta : CAmount}
    (h : pool.prioritiseTransaction env hash nFeeDelta = .ok pool') : Kept pool pool' := by
  unfold CTxMemPool.prioritiseTransaction at h
  dsimp only at h
  have hdeltas : Kept pool { pool with
      mapDeltas := pool.mapDeltas.insert hash (pool.applyDelta hash nFeeDelta) } :=
    Kept.of_mapTx rfl rfl
  split at h
  · obtain ⟨pool₁, h₁, h⟩ := bind_eq_ok.mp h
    obtain ⟨setAncestors, -, h⟩ := bind_eq_ok.mp h
    obtain ⟨pool₂, h₂, h⟩ := bind_eq_ok.mp h
    obtain ⟨setDescendants, -, h₃⟩ := bind_eq_ok.mp h
    have hkept₁ := Kept.modify_updateFeeDelta h₁
    have hstats := (StatsOnly.modifyAll core_updateDescendantState h₂).trans
      (StatsOnly.modifyAll core_updateAncestorState h₃)
    exact (hdeltas.trans hkept₁).trans hstats.kept
  · cases h
    exact hdeltas

theorem Kept.reviewEntry {view : ReorgView} {state state' : SetEntries × CTxMemPool} {it : UInt256}
    (h : CTxMemPool.reviewEntry view state it = .ok state') : Kept state.2 state'.2 := by
  obtain ⟨e, he, h⟩ := bind_eq_ok.mp h
  obtain ⟨out, -, h⟩ := bind_eq_ok.mp h
  cases h
  dsimp only
  split
  · exact Kept.refl state.2
  · exact ⟨rfl, map_lookup_insert_same (deref_eq_ok.mp he) (by rfl)⟩

end Kept

section Changes

variable {env} {pool pool' : CTxMemPool}

theorem HashesTracked.push (hash : UInt256) (e : CTxMemPoolEntry)
    (h : pool.HashesTracked env) (hnew : hash ∉ pool.mapTx) :
    HashesTracked env { pool with
      mapTx := pool.mapTx.insert hash { e with vTxHashesIdx := pool.vTxHashes.length }
      vTxHashes := pool.vTxHashes ++ [(e.tx.getWitnessHash env.crypto, hash)] } := by
  have hnone : pool.mapTx.lookup hash = none := AList.lookup_eq_none.mpr hnew
  have habsent : ∀ w, pool.hashPlace env (w, hash) = none := by
    intro w
    rw [hashPlace, hnone]
  refine (Placed.push h (habsent _)).congr ?_
  rintro ⟨w, listed⟩ i
  rw [Function.update_apply]
  rcases eq_or_ne listed hash with rfl | hne
  · simp [hashPlace, hnone, eq_comm]
  · simp [hashPlace, AList.lookup_insert_ne hne, hne]

theorem lookup_popHash_erase (pool : CTxMemPool) {it : UInt256} {e eb : CTxMemPoolEntry}
    {back : UInt256 × UInt256}
    (he : pool.mapTx.lookup it = some e) (hback : pool.vTxHashes.getLast? = some back)
    (heb : pool.mapTx.lookup back.2 = some eb)
    (hone : pool.vTxHashes.length ≤ 1 → back.2 = it) (hash : UInt256) :
    ((pool.popHash e.vTxHashesIdx).mapTx.erase it).lookup hash =
      if hash = it then none
      else if hash = back.2 then some { eb with vTxHashesIdx := e.vTxHashesIdx }
      else pool.mapTx.lookup hash := by
  unfold popHash
  rw [hback]
  dsimp only
  rcases eq_or_ne hash it with rfl | hne
  · rw [if_pos rfl, AList.lookup_erase]
  · rw [if_neg hne, AList.lookup_erase_ne hne]
    split
    next hmany =>
      dsimp only
      rw [heb]
      dsimp only
      split
      next heq => rw [heq, AList.lookup_insert]
      next hother => rw [AList.lookup_insert_ne hother]
    next hfew =>
      rw [if_neg (by rw [hone (Nat.not_lt.mp hfew)]; exact hne)]

theorem HashesTracked.removeUnchecked {it : UInt256} (h : pool.HashesTracked env)
    (hremove : pool.removeUnchecked env it = .ok pool') : pool'.HashesTracked env := by
  obtain ⟨e, he, hremove⟩ := bind_eq_ok.mp hremove
  cases hremove
  rw [deref_eq_ok] at he
  set spent := e.tx.vin.foldl (fun m txin => m.erase txin.prevout) pool.mapNextTx
  let listed := (e.tx.getWitnessHash env.crypto, it)
  have hplace : pool.hashPlace env listed = some e.vTxHashesIdx :=
    hashPlace_eq_some.mpr ⟨e, he, rfl, rfl⟩
  have hlisted : pool.vTxHashes[e.vTxHashesIdx]? = some listed := (h _ _).mp hplace
  have hlength := (List.getElem?_eq_some_iff.mp hlisted).1
  obtain ⟨back, hback⟩ : ∃ back, pool.vTxHashes.getLast? = some back := by
    rw [List.getLast?_eq_getElem?, List.getElem?_eq_getElem (by omega)]
    exact ⟨_, rfl⟩
  have hbackPlace : pool.vTxHashes[pool.vTxHashes.length - 1]? = some back := by
    rw [← List.getLast?_eq_getElem?, hback]
  obtain ⟨eb, heb, hwb, -⟩ := hashPlace_eq_some.mp ((h _ _).mpr hbackPlace)
  have hone : pool.vTxHashes.length ≤ 1 → back.2 = it := by
    intro hle
    rw [show e.vTxHashesIdx = pool.vTxHashes.length - 1 by omega, hbackPlace] at hlisted
    rw [Option.some.inj hlisted]
  have hlookup := lookup_popHash_erase { pool with mapNextTx := spent } he hback heb hone
  have hlist : (popHash { pool with mapNextTx := spent } e.vTxHashesIdx).vTxHashes =
      (pool.vTxHashes.set e.vTxHashesIdx back).dropLast := by
    unfold popHash
    dsimp only
    rw [hback]
    dsimp only
    split
    · rfl
    next hfew =>
      symm
      rw [← List.length_eq_zero_iff, List.length_dropLast, List.length_set]
      omega
  unfold HashesTracked
  dsimp only
  rw [hlist]
  refine (Placed.swapRemove h hplace hback).congr ?_
  rintro ⟨w, x⟩ i
  obtain ⟨wb, xb⟩ := back
  dsimp only at heb hwb hlookup
  rw [Function.update_apply, Function.update_apply]
  simp only [CTxMemPool.hashPlace, hlookup]
  -- the entry that goes may itself be the last one
  rcases eq_or_ne x it with rfl | hit
  · rcases eq_or_ne xb x with rfl | hxb
    · rw [he] at heb
      cases heb
      simp +contextual [he, ← hwb, listed, eq_comm]
    · simp +contextual [he, hxb.symm, listed, eq_comm]
  · rcases eq_or_ne x xb with rfl | hxb
    · rcases eq_or_ne wb w with rfl | hw
      · simp [hit, hwb, listed]
      · simp [heb, hit, hwb, listed, hw, hw.symm]
    · simp [hit, hxb, listed]

theorem HashesTracked.removeStaged {stage : SetEntries} {updateDescendants : Bool}
    (h : pool.HashesTracked env)
    (hremove : pool.removeStaged env stage updateDescendants = .ok pool') :
    pool'.HashesTracked env := by
  obtain ⟨pool₁, h₁, h₂⟩ := bind_eq_ok.mp hremove
  exact foldlM_invariant (I := HashesTracked env)
    (fun it _ s t hs ht => HashesTracked.removeUnchecked hs ht)
    ((StatsOnly.updateForRemoveFromMempool h₁).kept.tracked h) h₂

theorem HashesTracked.removeWithDescendants {txToRemove : SetEntries} (h : pool.HashesTracked env)
    (hremove : pool.removeWithDescendants env txToRemove = .ok pool') :
    pool'.HashesTracked env := by
  obtain ⟨setAllRemoves, -, hremove⟩ := bind_eq_ok.mp hremove
  exact h.removeStaged hremove

theorem HashesTracked.removeRecursive {origTx : CTransaction} (h : pool.HashesTracked env)
    (hremove : pool.removeRecursive env origTx = .ok pool') : pool'.HashesTracked env := by
  obtain ⟨txToRemove, -, hremove⟩ := bind_eq_ok.mp hremove
  exact h.removeWithDescendants hremove

theorem HashesTracked.removeConflicts {tx : CTransaction} (h : pool.HashesTracked env)
    (hremove : pool.removeConflicts env tx = .ok pool') : pool'.HashesTracked env := by
  refine foldlM_invariant (I := HashesTracked env) ?_ h hremove
  intro txin _ s t hs ht
  unfold removeConflict at ht
  split at ht
  · cases ht
    exact hs
  · split at ht
    · cases ht
      exact hs
    · exact ((Kept.clearPrioritisation s _).tracked hs).removeRecursive ht

theorem HashesTracked.removeForBlock {vtx : List CTransaction} (h : pool.HashesTracked env)
    (hremove : pool.removeForBlock env vtx = .ok pool') : pool'.HashesTracked env := by
  refine foldlM_invariant (I := HashesTracked env) ?_ h hremove
  intro tx _ s t hs ht
  obtain ⟨pool₁, h₁, ht⟩ := bind_eq_ok.mp ht
  obtain ⟨pool₂, h₂, ht⟩ := bind_eq_ok.mp ht
  cases ht
  have htracked₁ : pool₁.HashesTracked env := by
    unfold removeMined at h₁
    split at h₁
    · exact hs.removeStaged h₁
    · cases h₁
      exact hs
  exact (Kept.clearPrioritisation pool₂ _).tracked (htracked₁.removeConflicts h₂)

theorem HashesTracked.removeForReorg {view : ReorgView} (h : pool.HashesTracked env)
    (hremove : pool.removeForReorg env view = .ok pool') : pool'.HashesTracked env := by
  obtain ⟨⟨txToRemove, pool₁⟩, hloop, hremove⟩ := bind_eq_ok.mp hremove
  have hkept : Kept pool pool₁ :=
    foldlM_invariant (I := fun state : SetEntries × CTxMemPool => Kept pool state.2)
      (fun it _ s t hs ht => hs.trans (Kept.reviewEntry ht)) (Kept.refl pool) hloop
  exact (hkept.tracked h).removeWithDescendants hremove

theorem HashesTracked.trimToSize {score : CTxMemPoolEntry → CTxMemPoolEntry → Bool}
    {usage : CTxMemPool → Nat} {sizelimit : Nat} (h : pool.HashesTracked env)
    (htrim : pool.trimToSize env score usage sizelimit = .ok pool') : pool'.HashesTracked env :=
  trimToSize_invariant HashesTracked.removeWithDescendants h htrim

theorem Kept.applyWaitingDelta {hash : UInt256} (h : pool.applyWaitingDelta hash = .ok pool') :
    Kept pool pool' := by
  unfold CTxMemPool.applyWaitingDelta at h
  dsimp only at h
  split at h
  · cases h
    exact Kept.refl pool
  · exact Kept.modify_updateFeeDelta h

theorem Kept.linkParents (pool : CTxMemPool) (newit : UInt256) (tx : CTransaction) :
    Kept pool (pool.linkParents newit tx) := by
  obtain ⟨mapNextTx, hlinks⟩ := StatsOnly.linkParents pool newit tx
  have hspent : Kept pool { pool with mapNextTx } := Kept.of_mapTx rfl rfl
  exact hspent.trans hlinks.kept

/-- Up to its last lines, `addUnchecked` has put the new entry in the pool, but not in the list. -/
theorem HashesTracked.addUnchecked {entry : CTxMemPoolEntry} {setAncestors : SetEntries}
    (h : pool.HashesTracked env) (hnew : entry.tx.getHash env.crypto ∉ pool.mapTx)
    (hadd : pool.addUnchecked env entry setAncestors = .ok pool') : pool'.HashesTracked env := by
  unfold CTxMemPool.addUnchecked at hadd
  set newit := entry.tx.getHash env.crypto
  obtain ⟨pool₁, h₁, hadd⟩ := bind_eq_ok.mp hadd
  obtain ⟨e, he, hadd⟩ := bind_eq_ok.mp hadd
  obtain ⟨pool₂, h₂, hadd⟩ := bind_eq_ok.mp hadd
  obtain ⟨pool₃, h₃, hadd⟩ := bind_eq_ok.mp hadd
  obtain ⟨e₃, he₃, hadd⟩ := bind_eq_ok.mp hadd
  cases hadd
  rw [deref_eq_ok] at he he₃
  have hrest : Kept pool₁ pool₃ :=
    (Kept.linkParents pool₁ newit e.tx).trans
      ((StatsOnly.updateAncestorsOf h₂).trans (StatsOnly.updateEntryForAncestors h₃)).kept
  have hkept := (Kept.applyWaitingDelta h₁).trans hrest
  have htx : e₃.tx = e.tx := by
    have hplace := hrest.entries newit
    rw [he, he₃] at hplace
    exact congrArg Prod.fst (Option.some.inj hplace)
  -- without the new entry, the pool is as before
  have hothers : Kept pool { pool₃ with mapTx := pool₃.mapTx.erase newit } := by
    refine ⟨hkept.vTxHashes, fun hash => ?_⟩
    rcases eq_or_ne hash newit with rfl | hne
    · dsimp only
      rw [AList.lookup_erase, AList.lookup_eq_none.mpr hnew]
    · dsimp only
      rw [AList.lookup_erase_ne hne, hkept.entries, insertEntry]
      dsimp only
      rw [if_neg hnew, AList.lookup_insert_ne hne]
  have hpush := (hothers.tracked h).push newit e₃ (by simp)
  refine Kept.tracked ⟨?_, fun hash => ?_⟩ hpush
  · dsimp only
    rw [htx]
  · dsimp only
    rcases eq_or_ne hash newit with rfl | hne
    · rw [AList.lookup_insert, AList.lookup_insert]
      simp [place]
    · rw [AList.lookup_insert_ne hne, AList.lookup_insert_ne hne, AList.lookup_erase_ne hne]

end Changes

end CTxMemPool

/-- The operations of the pool. -/
inductive PoolOp where
  | addUnchecked (entry : CTxMemPoolEntry) (setAncestors : SetEntries)
  | removeStaged (stage : SetEntries) (updateDescendants : Bool)
  | removeRecursive (origTx : CTransaction)
  | removeConflicts (tx : CTransaction)
  | removeForBlock (vtx : List CTransaction)
  | removeForReorg (view : CTxMemPool.ReorgView)
  | expire (time : Int)
  | trimToSize (score : CTxMemPoolEntry → CTxMemPoolEntry → Bool) (usage : CTxMemPool → Nat)
      (sizelimit : Nat)
  | prioritiseTransaction (hash : UInt256) (nFeeDelta : CAmount)
  | clearPrioritisation (hash : UInt256)
  | updateTransactionsFromBlock (vHashesToUpdate : List UInt256)
  | clear

namespace PoolOp

variable (env : PoolEnv)

def run (pool : CTxMemPool) : PoolOp → Result CTxMemPool
  | .addUnchecked entry setAncestors => pool.addUnchecked env entry setAncestors
  | .removeStaged stage updateDescendants => pool.removeStaged env stage updateDescendants
  | .removeRecursive origTx => pool.removeRecursive env origTx
  | .removeConflicts tx => pool.removeConflicts env tx
  | .removeForBlock vtx => pool.removeForBlock env vtx
  | .removeForReorg view => pool.removeForReorg env view
  | .expire time => pool.expire env time
  | .trimToSize score usage sizelimit => pool.trimToSize env score usage sizelimit
  | .prioritiseTransaction hash nFeeDelta => pool.prioritiseTransaction env hash nFeeDelta
  | .clearPrioritisation hash => .ok (pool.clearPrioritisation hash)
  | .updateTransactionsFromBlock vHashes => pool.updateTransactionsFromBlock env vHashes
  | .clear => .ok pool.clear

/-- The pool after an operation. A failed assertion ends the process, so no state follows it. -/
def next (pool : CTxMemPool) (op : PoolOp) : CTxMemPool :=
  (op.run env pool).toOption.getD pool

/-- A transaction is added only if it is not there, and only an empty pool is cleared. -/
def KeepsList (pool : CTxMemPool) : PoolOp → Prop
  | .addUnchecked entry _ => entry.tx.getHash env.crypto ∉ pool.mapTx
  | .clear => pool.mapTx.keys = []
  | _ => True

variable {env}

theorem run_tracked {pool pool' : CTxMemPool} {op : PoolOp} (h : pool.HashesTracked env)
    (hop : op.KeepsList env pool) (hrun : op.run env pool = .ok pool') :
    pool'.HashesTracked env := by
  cases op with
  | addUnchecked entry setAncestors => exact h.addUnchecked hop hrun
  | removeStaged stage updateDescendants => exact h.removeStaged hrun
  | removeRecursive origTx => exact h.removeRecursive hrun
  | removeConflicts tx => exact h.removeConflicts hrun
  | removeForBlock vtx => exact h.removeForBlock hrun
  | removeForReorg view => exact h.removeForReorg hrun
  | expire time => exact h.removeWithDescendants hrun
  | trimToSize score usage sizelimit => exact h.trimToSize hrun
  | prioritiseTransaction hash nFeeDelta =>
      exact (CTxMemPool.Kept.prioritiseTransaction hrun).tracked h
  | clearPrioritisation hash =>
    cases hrun
    exact (CTxMemPool.Kept.clearPrioritisation pool hash).tracked h
  | updateTransactionsFromBlock vHashes =>
    exact (CTxMemPool.StatsOnly.updateTransactionsFromBlock hrun).kept.tracked h
  | clear =>
    cases hrun
    have hempty : pool.mapTx = ∅ := AList.ext (List.map_eq_nil_iff.mp hop)
    have hkept : CTxMemPool.Kept pool pool.clear := CTxMemPool.Kept.of_mapTx rfl hempty.symm
    exact hkept.tracked h

theorem next_tracked {pool : CTxMemPool} {op : PoolOp} (h : pool.HashesTracked env)
    (hop : op.KeepsList env pool) : (next env pool op).HashesTracked env := by
  unfold next
  cases hrun : op.run env pool with
  | error f => exact h
  | ok pool' => exact run_tracked h hop hrun

end PoolOp

theorem CTxMemPool.empty_tracked (env : PoolEnv) : CTxMemPool.empty.HashesTracked env := by
  intro listed i
  simp [hashPlace, CTxMemPool.empty]

/-- In every run that never clears a pool with entries, and never adds a transaction that is there
already, the list of hashes and the entries are in bijection. -/
theorem vTxHashes_bijection (env : PoolEnv) (ops : List PoolOp)
    (hops : Along (PoolOp.next env) (PoolOp.KeepsList env) CTxMemPool.empty ops) :
    let pool := ops.foldl (PoolOp.next env) CTxMemPool.empty
    (∀ hash e, pool.mapTx.lookup hash = some e →
      pool.vTxHashes[e.vTxHashesIdx]? = some (e.tx.getWitnessHash env.crypto, hash)) ∧
    ∀ (i : Nat) listed, pool.vTxHashes[i]? = some listed →
      ∃ e, pool.mapTx.lookup listed.2 = some e ∧ e.vTxHashesIdx = i := by
  have htracked : (ops.foldl (PoolOp.next env) CTxMemPool.empty).HashesTracked env :=
    Along.invariant (I := CTxMemPool.HashesTracked env) (fun _ _ => PoolOp.next_tracked)
      (CTxMemPool.empty_tracked env) hops
  exact htracked.bijection

def samplePoolEnv : PoolEnv := ⟨sampleCrypto, defaultBytesPerSigOp⟩

/-- Spends the given outpoint. -/
def samplePoolTx (prevout : COutPoint) : CTransaction :=
  ⟨1, 0, [{ prevout, scriptSig := [], nSequence := 0 }], [⟨1000, [0x51]⟩], 0⟩

def samplePoolEntry (tx : CTransaction) : CTxMemPoolEntry :=
  CTxMemPoolEntry.new samplePoolEnv tx 500 0 false 4 ⟨0, 0, none⟩

/-- A transaction, another one, and the removal of the first. -/
def samplePoolOps : List PoolOp :=
  [.addUnchecked (samplePoolEntry (samplePoolTx ⟨1, 0⟩)) ∅,
    .addUnchecked (samplePoolEntry (samplePoolTx ⟨2, 0⟩)) ∅,
    .removeRecursive (samplePoolTx ⟨1, 0⟩)]

theorem samplePoolOps_bijection :
    let pool := samplePoolOps.foldl (PoolOp.next samplePoolEnv) CTxMemPool.empty
    (∀ hash e, pool.mapTx.lookup hash = some e →
      pool.vTxHashes[e.vTxHashesIdx]? = some (e.tx.getWitnessHash samplePoolEnv.crypto, hash)) ∧
    ∀ (i : Nat) listed, pool.vTxHashes[i]? = some listed →
      ∃ e, pool.mapTx.lookup listed.2 = some e ∧ e.vTxHashesIdx = i := by
  apply vTxHashes_bijection
  refine ⟨?_, ?_, trivial, trivial⟩
  · exact List.not_mem_nil
  · change (samplePoolEntry (samplePoolTx ⟨2, 0⟩)).tx.getHash samplePoolEnv.crypto ∉ _
    decide +kernel

/-- After `clear` the list still names the entry that is gone. -/
theorem clear_leaves_hash :
    let pool := [PoolOp.addUnchecked (samplePoolEntry (samplePoolTx ⟨1, 0⟩)) ∅, .clear].foldl
      (PoolOp.next samplePoolEnv) CTxMemPool.empty
    pool.mapTx.keys = [] ∧ pool.vTxHashes.length = 1 := by
  decide +kernel

end Verium
