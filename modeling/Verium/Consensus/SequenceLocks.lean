import Verium.Chain.Finality
import Verium.Consensus.TxVerify
import Verium.Script.Interpreter

/-!
Relative lock times: `CalculateSequenceLocks` turns the sequence numbers of the inputs into the last
height and the last time at which the transaction is not valid yet, and `EvaluateSequenceLocks`
compares them with a block. Chains are lists of entries, from an entry down to genesis.
-/

namespace Verium

open Lib

def sequenceLocktimeGranularity : Nat := 9

/-- `GetAncestor(height)` of the entry at the head, with the ancestors below it. -/
def ancestorChain (chain : List CBlockIndex) (height : Nat) : Option (List CBlockIndex) :=
  match chain with
  | [] => none
  | pindex :: _ =>
      if pindex.nHeight < height then none
      else
        match chain.drop (pindex.nHeight - height) with
        | [] => none
        | ancestor => some ancestor

/-- One input of `CalculateSequenceLocks`: the two locks so far, and the heights. -/
def lockInput (block : List CBlockIndex) (acc : (Int × Int) × List Int) (input : CTxIn × Int) :
    Result ((Int × Int) × List Int) :=
  let ((nMinHeight, nMinTime), prevHeights) := acc
  let (txin, nCoinHeight) := input
  let nSequence := txin.nSequence.toNat
  let nLock := nSequence &&& sequenceLocktimeMask
  if nSequence &&& sequenceLocktimeDisableFlag ≠ 0 then
    -- the height of this input is not relevant for sequence locks
    .ok ((nMinHeight, nMinTime), prevHeights ++ [0])
  else if nSequence &&& sequenceLocktimeTypeFlag ≠ 0 then
    match ancestorChain block (max (nCoinHeight - 1) 0).toNat with
    -- the source does not test the pointer
    | none => .error (.assertion "block.GetAncestor(std::max(nCoinHeight-1, 0))")
    | some before =>
        let nCoinTime := getMedianTimePast before
        .ok ((nMinHeight, max nMinTime
          (nCoinTime + (nLock <<< sequenceLocktimeGranularity : Nat) - 1)),
          prevHeights ++ [nCoinHeight])
  else .ok ((max nMinHeight (nCoinHeight + nLock - 1), nMinTime), prevHeights ++ [nCoinHeight])

/-- `CalculateSequenceLocks(tx, flags, prevHeights, block)`, with the heights it leaves. -/
def calculateSequenceLocks (tx : CTransaction) (flags : Nat) (prevHeights : List Int)
    (block : List CBlockIndex) : Result ((Int × Int) × List Int) := do
  assertThat (prevHeights.length = tx.vin.length) "prevHeights->size() == tx.vin.size()"
  -- -1 has the effect of any height or time being valid
  if 2 ≤ tx.nVersion.toUInt32 ∧ flags &&& locktimeVerifySequence ≠ 0 then
    (tx.vin.zip prevHeights).foldlM (lockInput block) ((-1, -1), [])
  else return ((-1, -1), prevHeights)

/-- `EvaluateSequenceLocks(block, lockPair)`, where `pprev` is the chain below the block. -/
def evaluateSequenceLocks (nHeight : Int) (pprev : List CBlockIndex) (lockPair : Int × Int) :
    Bool :=
  ¬ (nHeight ≤ lockPair.1 ∨ getMedianTimePast pprev ≤ lockPair.2)

section Spec

variable {block : List CBlockIndex} {acc acc' : (Int × Int) × List Int} {input : CTxIn × Int}

theorem lockInput_mono (h : lockInput block acc input = .ok acc') :
    acc.1.1 ≤ acc'.1.1 ∧ acc.1.2 ≤ acc'.1.2 := by
  obtain ⟨⟨nMinHeight, nMinTime⟩, prevHeights⟩ := acc
  obtain ⟨txin, nCoinHeight⟩ := input
  simp only [lockInput] at h
  split at h
  · cases h
    exact ⟨le_rfl, le_rfl⟩
  · split at h
    · split at h
      · cases h
      · cases h
        exact ⟨le_rfl, le_max_left _ _⟩
    · cases h
      exact ⟨le_max_left _ _, le_rfl⟩

/-- The locks cover an input: the last height, or the last time, at which it cannot be spent yet. -/
def LockCovers (block : List CBlockIndex) (locks : Int × Int) (input : CTxIn × Int) : Prop :=
  let nSequence := input.1.nSequence.toNat
  let nLock := nSequence &&& sequenceLocktimeMask
  nSequence &&& sequenceLocktimeDisableFlag = 0 →
    (nSequence &&& sequenceLocktimeTypeFlag = 0 → input.2 + nLock - 1 ≤ locks.1) ∧
    (nSequence &&& sequenceLocktimeTypeFlag ≠ 0 →
      ∃ before, ancestorChain block (max (input.2 - 1) 0).toNat = some before ∧
        getMedianTimePast before + (nLock <<< sequenceLocktimeGranularity : Nat) - 1 ≤ locks.2)

theorem LockCovers.mono {locks locks' : Int × Int} (h : LockCovers block locks input)
    (hheight : locks.1 ≤ locks'.1) (htime : locks.2 ≤ locks'.2) :
    LockCovers block locks' input := by
  intro henabled
  obtain ⟨hh, ht⟩ := h henabled
  refine ⟨fun htype => (hh htype).trans hheight, ?_⟩
  intro htype
  obtain ⟨before, hbefore, hle⟩ := ht htype
  exact ⟨before, hbefore, hle.trans htime⟩

theorem lockInput_covers (h : lockInput block acc input = .ok acc') :
    LockCovers block acc'.1 input := by
  obtain ⟨⟨nMinHeight, nMinTime⟩, prevHeights⟩ := acc
  obtain ⟨txin, nCoinHeight⟩ := input
  intro henabled
  simp only [lockInput] at h henabled ⊢
  rw [if_neg (not_not.mpr henabled)] at h
  split at h
  · next htype =>
    refine ⟨fun hnot => absurd hnot htype, fun _ => ?_⟩
    split at h
    · cases h
    · next before hbefore =>
      cases h
      exact ⟨before, hbefore, le_max_right _ _⟩
  · next htype =>
    refine ⟨fun _ => ?_, fun hnot => absurd hnot htype⟩
    cases h
    exact le_max_right _ _

theorem foldlM_lockInput {inputs : List (CTxIn × Int)}
    (h : inputs.foldlM (lockInput block) acc = .ok acc') :
    (acc.1.1 ≤ acc'.1.1 ∧ acc.1.2 ≤ acc'.1.2) ∧
      ∀ input ∈ inputs, LockCovers block acc'.1 input := by
  induction inputs generalizing acc with
  | nil =>
    rw [foldlM_nil_eq_ok] at h
    subst h
    exact ⟨⟨le_rfl, le_rfl⟩, fun _ hmem => absurd hmem List.not_mem_nil⟩
  | cons input rest ih =>
    obtain ⟨mid, hstep, hrest⟩ := foldlM_cons_eq_ok.mp h
    obtain ⟨⟨hheight, htime⟩, hcovers⟩ := ih hrest
    have hmono := lockInput_mono hstep
    refine ⟨⟨hmono.1.trans hheight, hmono.2.trans htime⟩, List.forall_mem_cons.mpr ⟨?_, hcovers⟩⟩
    exact (lockInput_covers hstep).mono hheight htime

theorem calculateSequenceLocks_covers {tx : CTransaction} {flags : Nat} {prevHeights : List Int}
    {locks : Int × Int} {heights : List Int} (hversion : 2 ≤ tx.nVersion.toUInt32)
    (hflags : flags &&& locktimeVerifySequence ≠ 0)
    (h : calculateSequenceLocks tx flags prevHeights block = .ok (locks, heights)) :
    ∀ input ∈ tx.vin.zip prevHeights, LockCovers block locks input := by
  obtain ⟨⟨⟩, -, h⟩ := bind_eq_ok.mp h
  rw [if_pos ⟨hversion, hflags⟩] at h
  exact (foldlM_lockInput h).2

end Spec

end Verium
