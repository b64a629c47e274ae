import Mathlib.Data.Int.Order.Basic
import Verium.Consensus.CheckBlock

/-!
The height gate of the timestamp rules of `CheckBlock`. The gate is given by
`-timechecksheight` and compared with the height after the active tip, whatever the height of the
block is, and a block marked `fChecked` does not get to the rules at all.
-/

namespace Verium

open Lib

/-- `TimeChecksActivationHeight()`: the argument as an `int`, or the default that disables the
rules. -/
def timeChecksActivationHeight (arg : Option Int64) : Int :=
  (arg.getD 2147483647).toInt32.toInt

/-- What `CheckBlock` reads on a node with the given argument and active tip. No height is below
zero, so a negative argument acts as zero. -/
def checkContextOf (scratchbuf : Bool) (arg : Option Int64) (tipHeight : Option Nat) :
    CheckContext where
  scratchbuf
  tipHeight
  timeChecksActivationHeight := (timeChecksActivationHeight arg).toNat

/-- The height after the active tip, as `CheckBlock` works it out. -/
def heightAfter : Option Nat → Nat
  | none => 0
  | some nHeight => nHeight + 1

/-- The timestamp rules: the coinbase is not too early for the block, and no transaction is later
than the block. -/
structure TimeRules (block : CBlock) : Prop where
  coinbase : ∀ tx ∈ block.vtx.head?,
    (block.nTime.toNat : Int) ≤ tx.nTime.toNat + maxFutureBlockTime
  txs : ∀ tx ∈ block.vtx, tx.nTime ≤ block.nTime

section Gate

variable {crypto : Crypto} {ctx : CheckContext} {block : CBlock}

theorem enforceTime_checkContextOf {scratchbuf : Bool} {arg : Option Int64}
    {tipHeight : Option Nat} :
    enforceTime (checkContextOf scratchbuf arg tipHeight) = true ↔
      timeChecksActivationHeight arg ≤ heightAfter tipHeight := by
  rw [enforceTime, decide_eq_true_eq, ← Int.toNat_le]
  cases tipHeight <;> rfl

/-- Passing the tests on the transactions is passing those without the timestamp rules, and the
rules if the gate is open. -/
theorem checkBlockTransactions_gate (ctx ctx' : CheckContext) (block : CBlock)
    (hoff : enforceTime ctx' = false) :
    checkBlockTransactions ctx block = .ok () ↔
      checkBlockTransactions ctx' block = .ok () ∧ (enforceTime ctx = true → TimeRules block) := by
  unfold checkBlockTransactions
  cases hvtx : block.vtx with
  | nil =>
    simp only [bind_eq_ok, reduceCtorEq, and_false, exists_false, false_and]
  | cons coinbase rest =>
    simp only [bind_eq_ok, rejectIf_eq_ok, forM_eq_ok, hoff, Bool.false_eq_true, false_and,
      not_false_eq_true, true_and, exists_and_left, exists_const]
    constructor
    · rintro ⟨hsize, hcoinbase, hearly, hmultiple, hloop, hsigops⟩
      refine ⟨⟨hsize, hcoinbase, hmultiple, fun tx htx => (hloop tx htx).2, hsigops⟩, ?_⟩
      intro hon
      refine ⟨?_, ?_⟩
      · intro tx htx
        rw [hvtx] at htx
        cases htx
        exact not_lt.mp fun hlt => hearly ⟨hon, hlt⟩
      · intro tx htx
        rw [hvtx] at htx
        exact UInt32.not_lt.mp fun hlt => (hloop tx htx).1 ⟨hon, hlt⟩
    · rintro ⟨⟨hsize, hcoinbase, hmultiple, hloop, hsigops⟩, hrules⟩
      refine ⟨hsize, hcoinbase, ?_, hmultiple, ?_, hsigops⟩
      · rintro ⟨hon, hearly⟩
        exact absurd ((hrules hon).coinbase coinbase (by rw [hvtx]; rfl)) (not_le.mpr hearly)
      · intro tx htx
        refine ⟨?_, hloop tx htx⟩
        rintro ⟨hon, hlate⟩
        exact absurd ((hrules hon).txs tx (by rw [hvtx]; exact htx)) (UInt32.not_le.mpr hlate)

/-- The block passes every test of `CheckBlock` other than the timestamp rules. -/
def OtherChecks (crypto : Crypto) (scratchbuf : Bool) (block : CBlock)
    (fCheckPOW fCheckMerkleRoot : Bool) : Prop :=
  ∃ checked, checkBlock crypto { scratchbuf, tipHeight := none } { block with fChecked := false }
    fCheckPOW fCheckMerkleRoot = .ok checked

/-- An unmarked block is accepted if it passes the other tests, and the rules if the gate is
open. -/
theorem checkBlock_gate (hunmarked : block.fChecked = false) {fCheckPOW fCheckMerkleRoot : Bool} :
    (∃ checked, checkBlock crypto ctx block fCheckPOW fCheckMerkleRoot = .ok checked) ↔
      OtherChecks crypto ctx.scratchbuf block fCheckPOW fCheckMerkleRoot ∧
        (enforceTime ctx = true → TimeRules block) := by
  have hsame : { block with fChecked := false } = block := by
    rw [← hunmarked]
  have hgate := checkBlockTransactions_gate ctx
    { scratchbuf := ctx.scratchbuf, tipHeight := none } block rfl
  rw [OtherChecks, hsame]
  simp only [checkBlock, hunmarked, Bool.false_eq_true, if_false, bind_eq_ok, hgate]
  constructor
  · rintro ⟨checked, u, hwork, v, hmerkle, w, ⟨htxs, hrules⟩, -⟩
    exact ⟨⟨_, u, hwork, v, hmerkle, w, htxs, rfl⟩, hrules⟩
  · rintro ⟨⟨checked, u, hwork, v, hmerkle, w, htxs, -⟩, hrules⟩
    exact ⟨_, u, hwork, v, hmerkle, w, ⟨htxs, hrules⟩, rfl⟩

end Gate

section Enforcement

variable (crypto : Crypto) (scratchbuf : Bool) (arg : Option Int64)

/-- At the given tip, among the blocks at height `nHeight` that pass all other tests, `CheckBlock`
accepts exactly those that keep to the timestamp rules, if the height has reached the activation
height, and all if it has not. -/
def EnforcedAtHeight (tipHeight : Option Nat) (fChecked : Bool) (nHeight : Nat) : Prop :=
  ∀ (block : CBlock) (fCheckPOW fCheckMerkleRoot : Bool), block.fChecked = fChecked →
    OtherChecks crypto scratchbuf block fCheckPOW fCheckMerkleRoot →
    ((∃ checked, checkBlock crypto (checkContextOf scratchbuf arg tipHeight) block fCheckPOW
        fCheckMerkleRoot = .ok checked) ↔
      (timeChecksActivationHeight arg ≤ nHeight → TimeRules block))

/-- A block with a coinbase that is dated after it. -/
def postdatedBlock (fChecked : Bool) : CBlock :=
  { sampleBlock [{ sampleCoinbase with nTime := 101 }] with fChecked }

theorem postdatedBlock_not_timeRules (fChecked : Bool) : ¬ TimeRules (postdatedBlock fChecked) := by
  intro h
  have hlate : ¬ (101 : UInt32) ≤ 100 := by decide
  exact hlate (h.txs { sampleCoinbase with nTime := 101 } List.mem_cons_self)

theorem postdatedBlock_otherChecks (fChecked : Bool) :
    OtherChecks crypto scratchbuf (postdatedBlock fChecked) false false := by
  have htxs : checkBlockTransactions { scratchbuf := true, tipHeight := none }
      (postdatedBlock false) = .ok () := by
    decide +kernel
  have hsame := (checkBlockTransactions_gate { scratchbuf, tipHeight := none }
    { scratchbuf := true, tipHeight := none } (postdatedBlock false) rfl).mpr
    ⟨htxs, fun hon => by cases hon⟩
  refine ⟨{ postdatedBlock false with fChecked := false }, ?_⟩
  change checkBlock crypto _ (postdatedBlock false) false false = _
  simp only [checkBlock, show (postdatedBlock false).fChecked = false from rfl,
    Bool.false_eq_true, if_false, bind_eq_ok, checkWhen_eq_ok, hsame]
  exact ⟨(), by simp, (), by simp, (), trivial, rfl⟩

/-- What `CheckBlock` does with the rules: a marked block gets past it without them, and any other
is subject to them from the moment the height after the tip reaches the activation height. -/
theorem checkBlock_accepts_iff {tipHeight : Option Nat} {block : CBlock}
    {fCheckPOW fCheckMerkleRoot : Bool}
    (hother : OtherChecks crypto scratchbuf block fCheckPOW fCheckMerkleRoot) :
    (∃ checked, checkBlock crypto (checkContextOf scratchbuf arg tipHeight) block fCheckPOW
        fCheckMerkleRoot = .ok checked) ↔
      (block.fChecked = false ∧ timeChecksActivationHeight arg ≤ heightAfter tipHeight →
        TimeRules block) := by
  cases hmark : block.fChecked with
  | true =>
    refine iff_of_true ⟨block, ?_⟩ (fun h => by cases h.1)
    rw [checkBlock, if_pos hmark]
    rfl
  | false =>
    rw [checkBlock_gate hmark, enforceTime_checkContextOf]
    simp only [true_and]
    exact and_iff_right hother

end Enforcement

/-- On every node, `CheckBlock` enforces the timestamp rules by the height of the block exactly
if, at or above the activation height, the block is not marked and the height after the tip is at
or above it too, and, below it, the block is marked or the height after the tip is below it too.
A block it accepts with one tip it accepts with another one exactly if the height after that tip
is below the activation height or the block keeps to the rules. -/
theorem timeRules_byHeight_iff (crypto : Crypto) (scratchbuf : Bool) (arg : Option Int64) :
    (∀ (tipHeight : Option Nat) (fChecked : Bool) (nHeight : Nat),
      EnforcedAtHeight crypto scratchbuf arg tipHeight fChecked nHeight ↔
        (timeChecksActivationHeight arg ≤ nHeight ↔
          fChecked = false ∧ timeChecksActivationHeight arg ≤ heightAfter tipHeight)) ∧
    ∀ (tipHeight tipHeight' : Option Nat) (block : CBlock) (fCheckPOW fCheckMerkleRoot : Bool),
      block.fChecked = false →
      (∃ checked, checkBlock crypto (checkContextOf scratchbuf arg tipHeight) block fCheckPOW
        fCheckMerkleRoot = .ok checked) →
      ((∃ checked, checkBlock crypto (checkContextOf scratchbuf arg tipHeight') block fCheckPOW
          fCheckMerkleRoot = .ok checked) ↔
        (heightAfter tipHeight' < timeChecksActivationHeight arg ∨ TimeRules block)) := by
  constructor
  · intro tipHeight fChecked nHeight
    constructor
    · intro henforced
      have hblock := henforced (postdatedBlock fChecked) false false rfl
        (postdatedBlock_otherChecks crypto scratchbuf fChecked)
      rw [checkBlock_accepts_iff crypto scratchbuf arg
        (postdatedBlock_otherChecks crypto scratchbuf fChecked)] at hblock
      -- the block breaks the rules, so it is accepted exactly where they are not enforced
      have hbreaks := postdatedBlock_not_timeRules fChecked
      have hmark : (postdatedBlock fChecked).fChecked = fChecked := rfl
      simp only [hbreaks, imp_false, hmark] at hblock
      exact (not_iff_not.mp hblock).symm
    · intro hsides block fCheckPOW fCheckMerkleRoot hmark hother
      rw [checkBlock_accepts_iff crypto scratchbuf arg hother, hmark, ← hsides]
  · intro tipHeight tipHeight' block fCheckPOW fCheckMerkleRoot hunmarked haccepted
    obtain ⟨hother, -⟩ := (checkBlock_gate hunmarked).mp haccepted
    rw [checkBlock_accepts_iff crypto scratchbuf arg hother]
    simp only [hunmarked, true_and, ← not_le]
    exact imp_iff_not_or

/-- With the rules active from height 6 on, a block at height 5 is accepted on its parent and
rejected once the tip is at height 5. -/
theorem postdatedBlock_rejected_later :
    (∃ checked, checkBlock sampleCrypto (checkContextOf true (some 6) (some 4))
      (postdatedBlock false) true true = .ok checked) ∧
    checkBlock sampleCrypto (checkContextOf true (some 6) (some 5)) (postdatedBlock false) true
      true = .error (consensusInvalid "bad-tx-timestamp") :=
  ⟨failure?_eq_none.mp (by decide +kernel), failure?_eq_some.mp (by decide +kernel)⟩

/-- With the rules active from height 6 on, they are enforced by height on a block at height 5 or
6 as long as it is checked on its parent. -/
theorem sampleTips_timeRules :
    EnforcedAtHeight sampleCrypto true (some 6) (some 4) false 5 ∧
      EnforcedAtHeight sampleCrypto true (some 6) (some 5) false 6 := by
  have hiff := (timeRules_byHeight_iff sampleCrypto true (some 6)).1
  exact ⟨(hiff (some 4) false 5).mpr (by decide), (hiff (some 5) false 6).mpr (by decide)⟩

end Verium
