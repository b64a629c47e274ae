import Mathlib.Data.List.GetD
import Verium.Consensus.Retarget
import Verium.Lib.Lists

/-!
`CheckFinalTx`, and why a transaction that is final stays final. A header is accepted only if its
time is above the median of its parent, so the median never falls along a branch: the number of
block times in the window that are smaller than the parent's median does not grow. A block on any
later tip is higher and has a later time than that median.
-/

namespace Verium

open Lib

def locktimeVerifySequence : Nat := 1
def locktimeMedianTimePast : Nat := 2

def standardLocktimeVerifyFlags : Nat :=
  locktimeVerifySequence ||| locktimeMedianTimePast

/-- `CheckFinalTx(tx, flags)`, where `chain` is the active tip and its ancestors and
`nAdjustedTime` is `GetAdjustedTime()`. -/
def checkFinalTx (chain : List CBlockIndex) (nAdjustedTime : Int) (tx : CTransaction)
    (flags : Int) : Bool :=
  -- a negative value stands for the current consensus rules, which set no flag
  let flags := (max flags 0).toNat
  let nBlockHeight : Int := (chain.head?.map fun tip => (tip.nHeight : Int)).getD (-1) + 1
  let nBlockTime :=
    if flags &&& locktimeMedianTimePast ≠ 0 then getMedianTimePast chain else nAdjustedTime
  isFinalTx tx nBlockHeight nBlockTime

section Median

variable {chain : List CBlockIndex}

/-- The times `GetMedianTimePast` looks at. -/
def medianWindow (chain : List CBlockIndex) : List Int :=
  (chain.take nMedianTimeSpan).map CBlockIndex.getBlockTime

theorem le_getMedianTimePast_iff {m : Int} (hne : chain ≠ []) :
    m ≤ getMedianTimePast chain ↔
      (medianWindow chain).countP (· < m) ≤ (medianWindow chain).length / 2 := by
  have hpos : 0 < (medianWindow chain).length := by
    have hchain := List.length_pos_iff.mpr hne
    rw [medianWindow, List.length_map, List.length_take, nMedianTimeSpan]
    omega
  have hlen : ((medianWindow chain).insertionSort (· ≤ ·)).length = (medianWindow chain).length :=
    List.length_insertionSort _ _
  have hlt : ((medianWindow chain).insertionSort (· ≤ ·)).length / 2 <
      ((medianWindow chain).insertionSort (· ≤ ·)).length := by
    omega
  have hget : getMedianTimePast chain = ((medianWindow chain).insertionSort (· ≤ ·))[
      ((medianWindow chain).insertionSort (· ≤ ·)).length / 2] :=
    List.getD_eq_getElem _ _ hlt
  rw [hget, le_getElem_insertionSort_iff hlt, hlen]

theorem getMedianTimePast_le_cons {e : CBlockIndex} (hne : chain ≠ [])
    (htime : getMedianTimePast chain ≤ e.getBlockTime) :
    getMedianTimePast chain ≤ getMedianTimePast (e :: chain) := by
  rw [le_getMedianTimePast_iff (List.cons_ne_nil e chain)]
  have hold := (le_getMedianTimePast_iff hne).mp le_rfl
  generalize getMedianTimePast chain = m at htime hold ⊢
  -- the new time is not smaller than the median, and at most an old one leaves the window
  have hwindow : medianWindow (e :: chain) =
      e.getBlockTime :: (chain.take (nMedianTimeSpan - 1)).map CBlockIndex.getBlockTime :=
    rfl
  have hsub : ((chain.take (nMedianTimeSpan - 1)).map CBlockIndex.getBlockTime).Sublist
      (medianWindow chain) :=
    (List.take_sublist_take_left (by decide)).map _
  have hcount := hsub.countP_le (p := (decide <| · < m))
  have hlength : (medianWindow chain).length / 2 ≤ (medianWindow (e :: chain)).length / 2 := by
    have hmono : (medianWindow chain).length ≤ (medianWindow (e :: chain)).length := by
      simp only [medianWindow, List.length_map, List.length_take, List.length_cons]
      omega
    omega
  rw [hwindow, List.countP_cons_of_neg (by simpa using htime), ← hwindow]
  omega

end Median

section Branch

variable {params : Params} {float : FloatCode}

theorem contextualCheckBlockHeader_time {ctx : HeaderContext} {block : CBlockHeader}
    {chain : List CBlockIndex}
    (h : contextualCheckBlockHeader params float ctx block chain = .ok ()) :
    getMedianTimePast chain < block.nTime.toNat := by
  cases chain with
  | nil => cases h
  | cons pindexPrev rest =>
    rw [contextualCheckBlockHeader] at h
    obtain ⟨⟨⟩, -, h⟩ := bind_eq_ok.mp h
    obtain ⟨⟨⟩, -, h⟩ := bind_eq_ok.mp h
    obtain ⟨⟨⟩, htime, -⟩ := bind_eq_ok.mp h
    exact not_le.mp (rejectIf_eq_ok.mp htime)

theorem GrownChain.median_le {e pindexPrev : CBlockIndex} {rest : List CBlockIndex}
    (h : GrownChain params float (e :: pindexPrev :: rest)) :
    getMedianTimePast (pindexPrev :: rest) ≤ getMedianTimePast (e :: pindexPrev :: rest) := by
  cases h with
  | add _ hcheck _ htime _ =>
    have hnew := contextualCheckBlockHeader_time hcheck
    rw [← htime] at hnew
    exact getMedianTimePast_le_cons (List.cons_ne_nil _ _) hnew.le

theorem GrownChain.mono {pindexPrev tip : CBlockIndex} {rest chain : List CBlockIndex}
    (h : GrownChain params float (pindexPrev :: rest))
    (hsuffix : tip :: chain <:+ pindexPrev :: rest) :
    getMedianTimePast (tip :: chain) ≤ getMedianTimePast (pindexPrev :: rest) ∧
      tip.nHeight ≤ pindexPrev.nHeight := by
  generalize hbranch : pindexPrev :: rest = branch at h hsuffix
  induction h generalizing pindexPrev rest with
  | genesis hheight =>
    have heq := hsuffix.eq_of_length_le (by simp)
    obtain ⟨rfl, rfl⟩ := List.cons.inj heq
    obtain ⟨rfl, -⟩ := List.cons.inj hbranch
    exact ⟨le_rfl, le_rfl⟩
  | add hgrown hcheck hheight htime hbits ih =>
    obtain ⟨rfl, rfl⟩ := List.cons.inj hbranch
    rcases List.suffix_cons_iff.mp hsuffix with heq | hsuffix
    · obtain ⟨rfl, rfl⟩ := List.cons.inj heq
      exact ⟨le_rfl, le_rfl⟩
    · obtain ⟨hmedian, hle⟩ := ih rfl hsuffix
      have hstep := (GrownChain.add hgrown hcheck hheight htime hbits).median_le
      exact ⟨hmedian.trans hstep, by omega⟩

theorem isFinalTx_mono {tx : CTransaction} {height height' time time' : Int}
    (hheight : height ≤ height') (htime : time ≤ time') (h : isFinalTx tx height time = true) :
    isFinalTx tx height' time' = true := by
  unfold isFinalTx at h ⊢
  rw [Bool.or_eq_true, Bool.or_eq_true, decide_eq_true_eq, decide_eq_true_eq] at h ⊢
  rcases h with (hzero | hlock) | hfinal
  · exact .inl (.inl hzero)
  · refine .inl (.inr (hlock.trans_le ?_))
    split
    · exact hheight
    · exact htime
  · exact .inr hfinal

end Branch

/-- On every branch of accepted headers the median time does not fall from parent to child, and a
transaction that `CheckFinalTx` finds final by the median time of a tip is final for
`ContextualCheckBlock` in every block whose header is accepted on that tip or on a descendant of
it. -/
theorem finality_stable {params : Params} {float : FloatCode} {pindexPrev : CBlockIndex}
    {rest : List CBlockIndex} (h : GrownChain params float (pindexPrev :: rest)) :
    (∀ parent ancestors, rest = parent :: ancestors →
      getMedianTimePast rest ≤ getMedianTimePast (pindexPrev :: rest)) ∧
    ∀ tip chain, tip :: chain <:+ pindexPrev :: rest →
      ∀ (tx : CTransaction) (flags nAdjustedTime : Int),
      (max flags 0).toNat &&& locktimeMedianTimePast ≠ 0 →
      checkFinalTx (tip :: chain) nAdjustedTime tx flags = true →
      ∀ (ctx : HeaderContext) (block : CBlock),
        contextualCheckBlockHeader params float ctx block.getBlockHeader (pindexPrev :: rest) =
          .ok () →
        isFinalTx tx (pindexPrev.nHeight + 1 : Nat) block.nTime.toNat = true := by
  constructor
  · rintro parent ancestors rfl
    exact h.median_le
  · intro tip chain hsuffix tx flags nAdjustedTime hflag hfinal ctx block hcheck
    obtain ⟨hmedian, hheight⟩ := h.mono hsuffix
    rw [checkFinalTx, if_pos hflag] at hfinal
    have htime : getMedianTimePast (pindexPrev :: rest) < block.nTime.toNat :=
      contextualCheckBlockHeader_time hcheck
    refine isFinalTx_mono ?_ (hmedian.trans htime.le) hfinal
    change (tip.nHeight : Int) + 1 ≤ ((pindexPrev.nHeight + 1 : Nat) : Int)
    omega

/-- A transaction that may be in a block from a second before the genesis block on. -/
def timeLockedTx : CTransaction :=
  { nVersion := 1, nTime := 0, vin := [⟨COutPoint.null, [], 0, []⟩], vout := [],
    nLockTime := 1472669239 }

/-- The block at height 2, on a chain of two. -/
def easyBlock : CBlock :=
  { CBlockHeader.null with
    nTime := UInt32.ofNat (1472669240 + 2)
    nBits := 0x1f1fffff
    vtx := []
    vchBlockSig := []
    fChecked := false }

/-- Final by the median time of genesis, and so in the block at height 2. -/
theorem timeLockedTx_stays_final :
    checkFinalTx [easyEntry 0 0] 0 timeLockedTx standardLocktimeVerifyFlags = true ∧
      isFinalTx timeLockedTx 2 easyBlock.nTime.toNat = true := by
  have hgrown : GrownChain { hashGenesisBlock := 0 } easyFloat [easyEntry 1 1, easyEntry 0 0] :=
    easyEntry_add (.genesis rfl) rfl (by decide +kernel)
  have hfinal : checkFinalTx [easyEntry 0 0] 0 timeLockedTx standardLocktimeVerifyFlags = true := by
    decide +kernel
  have hcheck : contextualCheckBlockHeader { hashGenesisBlock := 0 } easyFloat
      ⟨1472669240 + 100000, none⟩ easyBlock.getBlockHeader [easyEntry 1 1, easyEntry 0 0] =
        .ok () := by
    decide +kernel
  exact ⟨hfinal, (finality_stable hgrown).2 _ _ (List.suffix_cons _ _) _ _ _ (by decide) hfinal _ _
    hcheck⟩

end Verium
