import Mathlib.Data.List.Lex
import Mathlib.Data.Prod.Lex
import Verium.Mempool.Entry

/-!
The comparators of the two score indices of `mapTx`, with their products taken exactly. A
comparison of cross products is one of the ratios, so each index is sorted by a ratio and then by
the tie-break; the comparator of the descendant score breaks its ties with `>=`.
-/

namespace Verium

open Lib

/-- `operator<` of `uint256`: `memcmp` on the bytes. -/
def hashLess (a b : UInt256) : Bool :=
  (serUInt256 a).map UInt8.toNat < (serUInt256 b).map UInt8.toNat

namespace CompareTxMemPoolEntryByDescendantScore

def getModFeeAndSize (env : PoolEnv) (a : CTxMemPoolEntry) : ℤ × Nat :=
  let f1 := a.getModifiedFee.toInt * a.nSizeWithDescendants.toNat
  let f2 := a.nModFeesWithDescendants.toInt * (a.getTxSize env).toNat
  if f2 > f1 then (a.nModFeesWithDescendants.toInt, a.nSizeWithDescendants.toNat)
  else (a.getModifiedFee.toInt, (a.getTxSize env).toNat)

/-- `operator()`. -/
def less (env : PoolEnv) (a b : CTxMemPoolEntry) : Bool :=
  let (aModFee, aSize) := getModFeeAndSize env a
  let (bModFee, bSize) := getModFeeAndSize env b
  let f1 := aModFee * bSize
  let f2 := aSize * bModFee
  if f1 = f2 then a.nTime ≥ b.nTime else f1 < f2

end CompareTxMemPoolEntryByDescendantScore

namespace CompareTxMemPoolEntryByAncestorFee

def getModFeeAndSize (env : PoolEnv) (a : CTxMemPoolEntry) : ℤ × Nat :=
  let f1 := a.getModifiedFee.toInt * a.nSizeWithAncestors.toNat
  let f2 := a.nModFeesWithAncestors.toInt * (a.getTxSize env).toNat
  if f1 > f2 then (a.nModFeesWithAncestors.toInt, a.nSizeWithAncestors.toNat)
  else (a.getModifiedFee.toInt, (a.getTxSize env).toNat)

/-- `operator()`. -/
def less (env : PoolEnv) (a b : CTxMemPoolEntry) : Bool :=
  let (aModFee, aSize) := getModFeeAndSize env a
  let (bModFee, bSize) := getModFeeAndSize env b
  let f1 := aModFee * bSize
  let f2 := aSize * bModFee
  if f1 = f2 then hashLess (a.tx.getHash env.crypto) (b.tx.getHash env.crypto) else f1 > f2

end CompareTxMemPoolEntryByAncestorFee

section Ratios

/-- The rate a comparator sorts by. -/
def ratio (feeAndSize : ℤ × Nat) : ℚ :=
  feeAndSize.1 / feeAndSize.2

variable {a b : ℤ × Nat}

theorem ratio_eq_iff (ha : 0 < a.2) (hb : 0 < b.2) : ratio a = ratio b ↔ a.1 * b.2 = a.2 * b.1 := by
  have ha' : (a.2 : ℚ) ≠ 0 := by positivity
  have hb' : (b.2 : ℚ) ≠ 0 := by positivity
  unfold ratio
  rw [div_eq_div_iff ha' hb', mul_comm (b.1 : ℚ)]
  norm_cast

theorem ratio_lt_iff (ha : 0 < a.2) (hb : 0 < b.2) : ratio a < ratio b ↔ a.1 * b.2 < a.2 * b.1 := by
  have ha' : (0 : ℚ) < a.2 := by positivity
  have hb' : (0 : ℚ) < b.2 := by positivity
  unfold ratio
  rw [div_lt_div_iff₀ ha' hb', mul_comm (b.1 : ℚ)]
  norm_cast

theorem isStrictWeakOrder_of_key {α β : Type} [LinearOrder β] (key : α → β) {r : α → α → Prop}
    (h : ∀ a b, r a b ↔ key a < key b) : IsStrictWeakOrder α r where
  irrefl a hr := lt_irrefl _ ((h a a).mp hr)
  trans a b c hab hbc := (h a c).mpr (((h a b).mp hab).trans ((h b c).mp hbc))
  incomp_trans a b c hab hbc := by
    simp only [h, not_lt] at hab hbc ⊢
    exact ⟨hbc.1.trans hab.1, hab.2.trans hbc.2⟩

end Ratios

/-- An entry whose sizes are positive. -/
structure CTxMemPoolEntry.Sized (env : PoolEnv) (e : CTxMemPoolEntry) : Prop where
  own : 0 < (e.getTxSize env).toNat
  descendants : 0 < e.nSizeWithDescendants.toNat
  ancestors : 0 < e.nSizeWithAncestors.toNat

section Keys

variable {env : PoolEnv} {a b : CTxMemPoolEntry}

theorem descendantSize_pos (ha : a.Sized env) :
    0 < (CompareTxMemPoolEntryByDescendantScore.getModFeeAndSize env a).2 := by
  unfold CompareTxMemPoolEntryByDescendantScore.getModFeeAndSize
  dsimp only
  split
  · exact ha.descendants
  · exact ha.own

theorem ancestorSize_pos (ha : a.Sized env) :
    0 < (CompareTxMemPoolEntryByAncestorFee.getModFeeAndSize env a).2 := by
  unfold CompareTxMemPoolEntryByAncestorFee.getModFeeAndSize
  dsimp only
  split
  · exact ha.ancestors
  · exact ha.own

/-- The highest rate is first, and the smaller hash. -/
def ancestorKey (env : PoolEnv) (e : CTxMemPoolEntry) : ℚᵒᵈ ×ₗ List Nat :=
  toLex (OrderDual.toDual (ratio (CompareTxMemPoolEntryByAncestorFee.getModFeeAndSize env e)),
    (serUInt256 (e.tx.getHash env.crypto)).map UInt8.toNat)

theorem ancestorLess_iff (ha : a.Sized env) (hb : b.Sized env) :
    CompareTxMemPoolEntryByAncestorFee.less env a b = true ↔
      ancestorKey env a < ancestorKey env b := by
  have hlt := ratio_lt_iff (ancestorSize_pos hb) (ancestorSize_pos ha)
  have heq := ratio_eq_iff (ancestorSize_pos ha) (ancestorSize_pos hb)
  simp only [ancestorKey, Prod.Lex.toLex_lt_toLex, OrderDual.toDual_lt_toDual,
    OrderDual.toDual_inj, hlt, heq, CompareTxMemPoolEntryByAncestorFee.less, hashLess]
  rw [mul_comm _ (CompareTxMemPoolEntryByAncestorFee.getModFeeAndSize env a).1,
    mul_comm _ ((CompareTxMemPoolEntryByAncestorFee.getModFeeAndSize env a).2 : ℤ)]
  split
  next htie => simp [htie]
  next hne => simp [hne]

/-- The lowest rate is first, and the later entry. -/
def descendantKey (env : PoolEnv) (e : CTxMemPoolEntry) : ℚ ×ₗ ℤᵒᵈ :=
  toLex (ratio (CompareTxMemPoolEntryByDescendantScore.getModFeeAndSize env e),
    OrderDual.toDual e.nTime)

/-- An entry is also before those it is tied with. -/
theorem descendantLess_iff (ha : a.Sized env) (hb : b.Sized env) :
    CompareTxMemPoolEntryByDescendantScore.less env a b = true ↔
      descendantKey env a ≤ descendantKey env b := by
  have hlt := ratio_lt_iff (descendantSize_pos ha) (descendantSize_pos hb)
  have heq := ratio_eq_iff (descendantSize_pos ha) (descendantSize_pos hb)
  simp only [descendantKey, Prod.Lex.toLex_le_toLex, OrderDual.toDual_le_toDual, hlt, heq,
    CompareTxMemPoolEntryByDescendantScore.less]
  split
  next htie => simp [htie]
  next hne => simp [hne]

end Keys

/-- On entries with positive sizes the comparator of the ancestor fee is a strict weak ordering.
The one of the descendant score is none unless there is no entry: it puts every entry before
itself. It is the negation of a strict weak ordering with its arguments swapped. -/
theorem entryComparators_strictWeak_iff (env : PoolEnv) (S : Set CTxMemPoolEntry)
    (hS : ∀ e ∈ S, e.Sized env) :
    (IsStrictWeakOrder S (fun a b => CompareTxMemPoolEntryByDescendantScore.less env a b = true) ∧
      IsStrictWeakOrder S (fun a b => CompareTxMemPoolEntryByAncestorFee.less env a b = true) ↔
        S = ∅) ∧
    IsStrictWeakOrder S (fun a b => CompareTxMemPoolEntryByAncestorFee.less env a b = true) ∧
    IsStrictWeakOrder S
      (fun a b => ¬ CompareTxMemPoolEntryByDescendantScore.less env b a = true) := by
  have hancestor : IsStrictWeakOrder S (fun a b =>
      CompareTxMemPoolEntryByAncestorFee.less env a b = true) :=
    isStrictWeakOrder_of_key (fun e : S => ancestorKey env e)
      fun a b => ancestorLess_iff (hS a a.2) (hS b b.2)
  have hreflexive : ∀ e ∈ S, CompareTxMemPoolEntryByDescendantScore.less env e e = true :=
    fun e he => (descendantLess_iff (hS e he) (hS e he)).mpr le_rfl
  refine ⟨⟨?_, ?_⟩, hancestor, ?_⟩
  · rintro ⟨hdescendant, -⟩
    apply Set.eq_empty_of_forall_notMem
    intro e he
    exact hdescendant.irrefl ⟨e, he⟩ (hreflexive e he)
  · rintro rfl
    exact ⟨isStrictWeakOrder_of_key (fun e : (∅ : Set CTxMemPoolEntry) => descendantKey env e)
      fun a => absurd a.2 (Set.notMem_empty _), hancestor⟩
  · apply isStrictWeakOrder_of_key (fun e : S => descendantKey env e)
    intro a b
    rw [descendantLess_iff (hS b b.2) (hS a a.2), not_le]

/-- An entry of one transaction without ancestors and descendants. -/
def feeEntry (nFee : Int64) (nTime : Int) : CTxMemPoolEntry :=
  .new ⟨sampleCrypto, defaultBytesPerSigOp⟩ ⟨1, 0, [], [⟨5, []⟩], 0⟩ nFee nTime false 0 ⟨0, 0, none⟩

def loneEntry : CTxMemPoolEntry :=
  feeEntry 1000 0

theorem loneEntry_beforeItself :
    loneEntry.Sized ⟨sampleCrypto, defaultBytesPerSigOp⟩ ∧
      CompareTxMemPoolEntryByDescendantScore.less ⟨sampleCrypto, defaultBytesPerSigOp⟩ loneEntry
        loneEntry = true :=
  ⟨⟨by decide, by decide, by decide⟩, by decide⟩

/-- Two entries are tied in their rates, and a third pays more. -/
def feeEntries : List CTxMemPoolEntry :=
  [feeEntry 1000 0, feeEntry 1000 1, feeEntry 2000 0]

theorem feeEntries_comparators :
    CompareTxMemPoolEntryByAncestorFee.less ⟨sampleCrypto, defaultBytesPerSigOp⟩
        (feeEntry 2000 0) (feeEntry 1000 1) = true ∧
      IsStrictWeakOrder {e | e ∈ feeEntries} (fun a b =>
        CompareTxMemPoolEntryByAncestorFee.less ⟨sampleCrypto, defaultBytesPerSigOp⟩ a b = true) ∧
      IsStrictWeakOrder {e | e ∈ feeEntries} (fun a b =>
        ¬ CompareTxMemPoolEntryByDescendantScore.less ⟨sampleCrypto, defaultBytesPerSigOp⟩ b a =
          true) := by
  have hsized : ∀ e ∈ feeEntries, e.Sized ⟨sampleCrypto, defaultBytesPerSigOp⟩ := by
    simp only [feeEntries, List.forall_mem_cons, List.not_mem_nil, false_implies, implies_true,
      and_true]
    refine ⟨⟨?_, ?_, ?_⟩, ⟨?_, ?_, ?_⟩, ⟨?_, ?_, ?_⟩⟩ <;> decide
  exact ⟨by decide, (entryComparators_strictWeak_iff _ {e | e ∈ feeEntries} hsized).2⟩

end Verium
