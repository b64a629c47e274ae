import Verium.Mempool.Replacement

/-!
What eviction does to the bar for new transactions. `TrimToSize` works out the highest fee rate of
the packages it evicts, but only writes it to the log: `GetMinFee` is the relay fee rate before and
after. So a transaction that `CheckFeeRate` lets in is sure to pay more than the evicted packages
only if these paid no more than the relay fee rate.
-/

namespace Verium

open Lib

/-- The packages that the loop of `TrimToSize` evicts, given by their top entries at that time. -/
def CTxMemPool.trimEvictions (env : PoolEnv) (score : CTxMemPoolEntry → CTxMemPoolEntry → Bool)
    (usage : CTxMemPool → Nat) (sizelimit : Nat) : (fuel : Nat) → CTxMemPool → List CTxMemPoolEntry
  | 0, _ => []
  | fuel + 1, pool =>
      match firstByScore score pool.mapTx.entries with
      | none => []
      | some it =>
          if sizelimit < usage pool then
            (pool.mapTx.lookup it).toList ++
              match pool.removeWithDescendants env (SortedSet.singleton it) with
              | .ok pool => trimEvictions env score usage sizelimit fuel pool
              | .error _ => []
          else []

/-- A pool, the node around it, whose settings and height the rate of `GetMinFee` depends on, and
the packages that have been evicted since a block was last connected. -/
structure BarState where
  pool : CTxMemPool
  ctx : AcceptContext
  evicted : List CTxMemPoolEntry

def BarState.minFee (s : BarState) : CAmount :=
  s.ctx.getMinRelayTxFee

/-- What happens to a pool: it is trimmed, a block is connected or disconnected, or anything else
changes it, the entry of a transaction included. -/
inductive BarEvent where
  | trim (score : CTxMemPoolEntry → CTxMemPoolEntry → Bool) (usage : CTxMemPool → Nat)
      (sizelimit : Nat)
  | connect (pool : CTxMemPool)
  | disconnect (pool : CTxMemPool)
  | other (pool : CTxMemPool)

def BarState.next (env : PoolEnv) (s : BarState) : BarEvent → BarState
  | .trim score usage sizelimit =>
      { s with
        pool := ((s.pool.trimToSize env score usage sizelimit).toOption).getD s.pool
        evicted := s.evicted ++
          s.pool.trimEvictions env score usage sizelimit s.pool.mapTx.keys.length }
  | .connect pool =>
      { pool
        ctx := { s.ctx with tipHeight := some ((s.ctx.tipHeight.map (· + 1)).getD 0) }
        evicted := [] }
  | .disconnect pool =>
      { s with pool, ctx := { s.ctx with tipHeight := s.ctx.tipHeight.map (· - 1) } }
  | .other pool => { s with pool }

/-- The package pays no more than the relay fee rate, which is positive and so small that a fee
computed from it does not overflow. -/
structure BelowRelayRate (minFee : CAmount) (e : CTxMemPoolEntry) : Prop where
  rate : e.nModFeesWithDescendants.toInt * 1000 ≤ minFee.toInt * e.nSizeWithDescendants.toNat
  size : 0 < e.nSizeWithDescendants.toNat
  pos : 0 < minFee.toInt
  small : minFee.toInt ≤ 2 ^ 39

/-- A trim evicts only packages below the relay fee rate. -/
def BarEvent.Modest (env : PoolEnv) (s : BarState) : BarEvent → Prop
  | .trim score usage sizelimit =>
      ∀ e ∈ s.pool.trimEvictions env score usage sizelimit s.pool.mapTx.keys.length,
        BelowRelayRate s.minFee e
  | _ => True

section Bar

variable {env : PoolEnv} {ctx : AcceptContext} {args : ATMPArgs} {pool pool' : CTxMemPool}
  {tx : CTransaction} {ws : Workspace}

theorem checkFeeRate_ok {packageSize : Nat} {packageFee : CAmount}
    (h : checkFeeRate ctx packageSize packageFee = .ok ()) :
    (getFee ctx.getMinRelayTxFee packageSize true).toInt ≤ packageFee.toInt := by
  obtain ⟨⟨⟩, -, h⟩ := bind_eq_ok.mp h
  rw [rejectIf_eq_ok, Int64.not_lt, Int64.le_iff_toInt_le] at h
  exact h

theorem acceptSingleTransaction_checkFeeRate
    (h : acceptSingleTransaction env ctx args pool tx = .ok (ws, pool'))
    (hlimits : args.bypassLimits = false) :
    checkFeeRate ctx (ws.entry.nSize env).toNat ws.nModifiedFees = .ok () := by
  obtain ⟨⟨view, hpre⟩, -⟩ := acceptSingleTransaction_preChecks h
  obtain ⟨checked, hpassed, -, hentry, hfees, -⟩ := preChecks_ok hpre
  rw [hentry, hfees]
  exact hpassed.feeRate hlimits

/-- The product may be rounded, but by less than the start fee makes up for. -/
theorem lt_getFee {minFee : CAmount} (hpos : 0 < minFee.toInt) (hsmall : minFee.toInt ≤ 2 ^ 39)
    (packageSize : UInt32) :
    minFee.toInt * packageSize.toNat < 1000 * (getFee minFee packageSize.toNat true).toInt := by
  obtain ⟨M, hM⟩ := Int.eq_ofNat_of_zero_le hpos.le
  have hlt := packageSize.toNat_lt
  have hrate : toDouble M = M := toDouble_of_dvd (k := 0) (by simp) (by omega)
  have hsize : toDouble (packageSize.toNat / 1000 : Nat) = (packageSize.toNat / 1000 : Nat) :=
    toDouble_of_dvd (k := 0) (by simp) (by omega)
  have hproduct : M * (packageSize.toNat / 1000) ≤ 2 ^ 62 := by
    calc
      M * (packageSize.toNat / 1000) ≤ 2 ^ 39 * 2 ^ 23 := Nat.mul_le_mul (by omega) (by omega)
      _ = 2 ^ 62 := by norm_num
  have hcharged : chargedFee minFee.toInt packageSize.toNat true =
      toDouble (M * (packageSize.toNat / 1000) : Nat) + M := by
    rw [chargedFee, hM, hrate, hsize, Nat.cast_mul, if_pos rfl]
  have hlow := le_toDouble (M * (packageSize.toNat / 1000))
  have hhigh := toDouble_mono hproduct
  rw [toDouble_of_dvd (x := (2 ^ 62 : Nat)) (k := 62) (by norm_num) (by norm_num)] at hhigh
  have hfee : (getFee minFee packageSize.toNat true).toInt =
      toDouble (M * (packageSize.toNat / 1000) : Nat) + M := by
    rw [toInt_getFee_eq (by rw [hcharged, Fits]; omega), hcharged, leastFee, if_neg (by omega)]
  -- the size is below the started kilobytes
  have hkilo : M * packageSize.toNat ≤ M * (1000 * (packageSize.toNat / 1000) + 999) :=
    Nat.mul_le_mul_left _ (by omega)
  have herror : M * (packageSize.toNat / 1000) ≤ M * 2 ^ 23 := Nat.mul_le_mul_left _ (by omega)
  rw [Nat.mul_add, Nat.mul_left_comm] at hkilo
  rw [hfee, hM]
  generalize toDouble (M * (packageSize.toNat / 1000) : Nat) = charged at hlow ⊢
  push_cast at hlow
  zify at hkilo herror
  omega

/-- Who pays the relay fee pays more, by the byte, than a package below the relay fee rate. -/
theorem BelowRelayRate.outpaid {e : CTxMemPoolEntry} (h : BelowRelayRate ctx.getMinRelayTxFee e)
    {packageSize : UInt32} {packageFee : CAmount}
    (hpass : checkFeeRate ctx packageSize.toNat packageFee = .ok ()) :
    e.nModFeesWithDescendants.toInt * packageSize.toNat <
      packageFee.toInt * e.nSizeWithDescendants.toNat := by
  obtain ⟨hrate, hsize, hpos, hsmall⟩ := h
  have hfee := checkFeeRate_ok hpass
  have hbar := lt_getFee hpos hsmall packageSize
  generalize ctx.getMinRelayTxFee.toInt = M at hrate hbar
  generalize e.nModFeesWithDescendants.toInt = F at hrate ⊢
  generalize hZ : (e.nSizeWithDescendants.toNat : ℤ) = Z at hrate ⊢
  have hZpos : 0 < Z := by omega
  have hlow : F * 1000 * packageSize.toNat ≤ M * Z * packageSize.toNat :=
    mul_le_mul_of_nonneg_right hrate (Int.natCast_nonneg _)
  have hhigh : M * packageSize.toNat * Z < 1000 * packageFee.toInt * Z :=
    mul_lt_mul_of_pos_right (by omega) hZpos
  nlinarith

/-- At a lower tip the rate is no lower. -/
theorem getMinRelayTxFee_disconnect (ctx : AcceptContext) :
    let ctx' := { ctx with tipHeight := ctx.tipHeight.map (· - 1) }
    ctx.getMinRelayTxFee.toInt ≤ ctx'.getMinRelayTxFee.toInt ∧
      (ctx.getMinRelayTxFee.toInt ≤ 2 ^ 39 → ctx'.getMinRelayTxFee.toInt ≤ 2 ^ 39) := by
  unfold AcceptContext.getMinRelayTxFee
  dsimp only
  split
  · exact ⟨le_rfl, id⟩
  · cases htip : ctx.tipHeight with
    | none => exact ⟨le_rfl, id⟩
    | some nHeight =>
      have hnext : getMinTxFee ctx.params (some nHeight) 0 =
          getMinTxFee ctx.params none (nHeight + 1) := by
        simp [getMinTxFee]
      constructor
      · rw [hnext]
        exact getMinTxFee_antitone ctx.params none (show nHeight - 1 < nHeight + 1 by omega)
      · intro _
        rcases getMinTxFee_eq ctx.params ((some nHeight).map (· - 1)) 0 with hfee | hfee
        · rw [hfee]
          decide
        · rw [hfee]
          decide

theorem BelowRelayRate.mono {minFee minFee' : CAmount} {e : CTxMemPoolEntry}
    (h : BelowRelayRate minFee e) (hle : minFee.toInt ≤ minFee'.toInt)
    (hsmall : minFee'.toInt ≤ 2 ^ 39) : BelowRelayRate minFee' e where
  rate := h.rate.trans (mul_le_mul_of_nonneg_right hle (Int.natCast_nonneg _))
  size := h.size
  pos := h.pos.trans_le hle
  small := hsmall

theorem BarState.next_belowRelayRate {s : BarState} {event : BarEvent}
    (h : ∀ e ∈ s.evicted, BelowRelayRate s.minFee e) (hgood : event.Modest env s) :
    ∀ e ∈ (s.next env event).evicted, BelowRelayRate (s.next env event).minFee e := by
  cases event with
  | trim score usage sizelimit =>
    intro e he
    rcases List.mem_append.mp he with he | he
    · exact h e he
    · exact hgood e he
  | connect pool =>
    intro e he
    cases he
  | disconnect pool =>
    intro e he
    obtain ⟨hle, hsmall⟩ := getMinRelayTxFee_disconnect s.ctx
    exact (h e he).mono hle (hsmall (h e he).small)
  | other pool => exact h

end Bar

/-- In every run that starts after a block and whose trims evict only packages below the relay fee
rate, a transaction accepted through `CheckFeeRate` in the state reached has a higher fee rate than
each package evicted since a block was last connected. -/
theorem eviction_raisesBar {env : PoolEnv} (s : BarState) (events : List BarEvent)
    (hstart : s.evicted = [])
    (hrun : Along (BarState.next env) (fun s event => event.Modest env s) s events)
    {ctx : AcceptContext} {args : ATMPArgs} {tx : CTransaction} {ws : Workspace}
    {pool' : CTxMemPool} (hsettings : ctx.getMinRelayTxFee =
      (events.foldl (BarState.next env) s).minFee)
    (hlimits : args.bypassLimits = false)
    (haccept : acceptSingleTransaction env ctx args (events.foldl (BarState.next env) s).pool tx =
      .ok (ws, pool')) :
    ∀ e ∈ (events.foldl (BarState.next env) s).evicted,
      ¬ (ws.nModifiedFees.toInt * e.nSizeWithDescendants.toNat ≤
        e.nModFeesWithDescendants.toInt * (ws.entry.nSize env).toNat) := by
  have hinv := Along.invariant (I := fun s => ∀ e ∈ s.evicted, BelowRelayRate s.minFee e)
    (fun s event hs hgood => BarState.next_belowRelayRate hs hgood)
    (by rw [hstart]; exact fun e he => absurd he List.not_mem_nil) hrun
  intro e he
  have hbelow := hinv e he
  rw [← hsettings] at hbelow
  exact not_le.mpr
    (hbelow.outpaid (acceptSingleTransaction_checkFeeRate haccept hlimits))

/-- Fees and sizes of the packages that are evicted from a pool when nothing may stay. -/
def sampleEvictions (pool : CTxMemPool) : List (ℤ × Nat) :=
  (pool.trimEvictions samplePoolEnv sampleAccept.score (fun pool => pool.mapTx.keys.length) 0
    pool.mapTx.keys.length).map fun e =>
      (e.nModFeesWithDescendants.toInt, e.nSizeWithDescendants.toNat)

/-- The pool after everything has been evicted. -/
def sampleTrimmed (pool : CTxMemPool) : CTxMemPool :=
  ((pool.trimToSize samplePoolEnv sampleAccept.score (fun pool => pool.mapTx.keys.length)
    0).toOption).getD pool

/-- The fee and the size of a transaction that is accepted. -/
def sampleFeeAndSize (pool : CTxMemPool) (tx : CTransaction) : Option (ℤ × Nat) :=
  (acceptSingleTransaction samplePoolEnv sampleAccept sampleATMPArgs pool tx).toOption.map fun r =>
    (r.1.nModifiedFees.toInt, (r.1.entry.nSize samplePoolEnv).toNat)

/-- A transaction is evicted, and then one of the same size that pays half as much gets in. -/
theorem sampleSpend_underbids :
    sampleFeeAndSize .empty (sampleSpend 200000 40) = some (200000, 104) ∧
    sampleEvictions (sampleRun [sampleSpend 200000 40]) = [(200000, 104)] ∧
    (sampleTrimmed (sampleRun [sampleSpend 200000 40])).mapTx.keys = [] ∧
    sampleFeeAndSize (sampleTrimmed (sampleRun [sampleSpend 200000 40])) (sampleSpend 100000 40) =
      some (100000, 104) := by
  decide +kernel

/-- The pool with one transaction, of whose fee all but one unit is discounted. -/
def sampleDiscounted : CTxMemPool :=
  (((sampleRun [sampleSpend 200000 40]).prioritiseTransaction samplePoolEnv
    ((sampleSpend 200000 40).getHash samplePoolEnv.crypto) (-199999)).toOption).getD .empty

/-- A trim that evicts everything. -/
def sampleTrim : BarEvent :=
  .trim sampleAccept.score (fun pool => pool.mapTx.keys.length) 0

theorem sampleTrim_modest {pool : CTxMemPool} (h : ∀ p ∈ sampleEvictions pool,
      p.1 * 1000 ≤ sampleAccept.getMinRelayTxFee.toInt * p.2 ∧ 0 < p.2) :
    sampleTrim.Modest samplePoolEnv ⟨pool, sampleAccept, []⟩ := by
  have hfee : 0 < sampleAccept.getMinRelayTxFee.toInt ∧
      sampleAccept.getMinRelayTxFee.toInt ≤ 2 ^ 39 := by
    decide +kernel
  intro e he
  obtain ⟨hrate, hsize⟩ := h _ (List.mem_map_of_mem he)
  exact ⟨hrate, hsize, hfee.1, hfee.2⟩

/-- A trim, and then a block is disconnected. -/
def sampleBarState : BarState :=
  [sampleTrim, .disconnect .empty].foldl (BarState.next samplePoolEnv)
    ⟨sampleDiscounted, sampleAccept, []⟩

/-- A package that pays next to nothing is evicted, and what gets in then pays more. -/
theorem sampleSpend_outbids :
    sampleBarState.evicted.length = 1 ∧
      ∃ r, acceptSingleTransaction samplePoolEnv sampleAccept sampleATMPArgs sampleBarState.pool
        (sampleSpend 100000 40) = .ok r ∧
      ∀ e ∈ sampleBarState.evicted,
        ¬ (r.1.nModifiedFees.toInt * e.nSizeWithDescendants.toNat ≤
          e.nModFeesWithDescendants.toInt * (r.1.entry.nSize samplePoolEnv).toNat) := by
  have hpass : (acceptSingleTransaction samplePoolEnv sampleAccept sampleATMPArgs
      sampleBarState.pool (sampleSpend 100000 40)).toOption.isSome = true := by
    decide +kernel
  have hevicted : sampleEvictions sampleDiscounted = [(1, 104)] := by decide +kernel
  have hmodest : sampleTrim.Modest samplePoolEnv ⟨sampleDiscounted, sampleAccept, []⟩ := by
    apply sampleTrim_modest
    rw [hevicted]
    decide +kernel
  have hsettings : sampleAccept.getMinRelayTxFee = sampleBarState.minFee := by decide +kernel
  obtain ⟨r, hr⟩ := Option.isSome_iff_exists.mp hpass
  refine ⟨by decide +kernel, r, toOption_eq_some.mp hr, ?_⟩
  exact eviction_raisesBar ⟨sampleDiscounted, sampleAccept, []⟩ [sampleTrim, .disconnect .empty]
    (Eq.refl []) ⟨hmodest, trivial, trivial⟩ hsettings (Eq.refl false) (toOption_eq_some.mp hr)

end Verium
