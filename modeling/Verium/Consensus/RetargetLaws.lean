import Verium.Consensus.Retarget

/-!
The next target as a function of the observed spacing: it grows with the spacing through the
product, the truncating division, the clamp and the rounding to the compact form, it is the
previous target when the spacing is the one aimed at, and it is never above the limit.
-/

namespace Verium

open Lib

theorem setCompact_getCompact_mono {bn bn' : Int} (hle : bn ≤ bn')
    (h : signedByteLength bn.natAbs ≤ 255) (h' : signedByteLength bn'.natAbs ≤ 255) :
    setCompact (getCompact bn) ≤ setCompact (getCompact bn') := by
  rw [setCompact_getCompact h, setCompact_getCompact h']
  dsimp only
  rcases lt_or_ge bn 0 with hneg | hnonneg
  · rcases lt_or_ge bn' 0 with hneg' | hnonneg'
    · have hmono := ofTopBytes_topBytes_mono (show bn'.natAbs ≤ bn.natAbs by omega)
      rw [if_pos hneg, if_pos hneg']
      omega
    · rw [if_pos hneg, if_neg hnonneg'.not_gt]
      omega
  · have hmono := ofTopBytes_topBytes_mono (show bn.natAbs ≤ bn'.natAbs by omega)
    rw [if_neg hnonneg.not_gt, if_neg (hnonneg.trans hle).not_gt]
    omega

theorem setCompact_getCompact_le_limit {bn : Int} (hle : bn ≤ proofOfWorkLimit)
    (h : signedByteLength bn.natAbs ≤ 255) : setCompact (getCompact bn) ≤ proofOfWorkLimit := by
  rcases le_or_gt bn 0 with hnonpos | hpos
  · have hdecoded := setCompact_getCompact_nonpos hnonpos h
    omega
  · exact (setCompact_getCompact_pos hpos h).2.trans hle

section Spacing

/-- The last lines of `GetNextTargetRequired`: the target for a spacing that was observed. -/
def targetForSpacing (nBits : UInt32) (nTargetSpacing timespan : Nat) (nActualSpacing : Int) :
    UInt32 :=
  let nInterval : Int := (timespan : Int) / nTargetSpacing
  let bnNew := (setCompact nBits *
      ((nInterval - 1) * nTargetSpacing + nActualSpacing + nActualSpacing)).tdiv
    ((nInterval + 1) * nTargetSpacing)
  getCompact (if (proofOfWorkLimit : Int) < bnNew then proofOfWorkLimit else bnNew)

theorem getNextTargetRequired_eq (params : Params) (float : FloatCode)
    {last prev prevPrev : CBlockIndex} (rest : List CBlockIndex) (hheight : 2 < last.nHeight) :
    getNextTargetRequired params float (last :: prev :: prevPrev :: rest) =
      targetForSpacing prev.nBits (float.calculateBlocktime prev.nBits)
        (targetTimespan params last.nHeight) (prev.getBlockTime - prevPrev.getBlockTime) := by
  rw [getNextTargetRequired, if_neg hheight.not_ge]
  rfl

variable {target factor factor' divisor : Int}

/-- The scaled target after the clamp. -/
def clampedTarget (target factor divisor : Int) : Int :=
  min ((target * factor).tdiv divisor) proofOfWorkLimit

theorem clampedTarget_mono (htarget : 0 ≤ target) (hdivisor : 0 < divisor) (h : factor ≤ factor') :
    clampedTarget target factor divisor ≤ clampedTarget target factor' divisor := by
  apply min_le_min_right
  apply Int.tdiv_le_tdiv hdivisor
  exact Int.mul_le_mul_of_nonneg_left h htarget

theorem clampedTarget_length (htarget : 0 < target) (hlimit : target ≤ proofOfWorkLimit)
    (hfactor : -2 ^ 34 < factor) (hdivisor : 0 < divisor) :
    signedByteLength (clampedTarget target factor divisor).natAbs ≤ 255 := by
  have hbound : (0 : Int) < proofOfWorkLimit ∧ (proofOfWorkLimit : Int) < 2 ^ 245 := by
    simp [proofOfWorkLimit]
  rcases le_or_gt ((target * factor).tdiv divisor) 0 with hnonpos | hpos
  · have hclamp : clampedTarget target factor divisor = (target * factor).tdiv divisor :=
      min_eq_left (by omega)
    rw [hclamp]
    exact scaled_length htarget (by omega) hfactor hdivisor hnonpos
  · have hle : clampedTarget target factor divisor ≤ proofOfWorkLimit := min_le_right _ _
    have hpos' : 0 < clampedTarget target factor divisor := lt_min hpos hbound.1
    have hlen := signedByteLength_le
      (show (clampedTarget target factor divisor).natAbs < 2 ^ 245 by omega)
    omega

variable {nBits : UInt32} {nTargetSpacing : Nat}

theorem targetForSpacing_eq (timespan : Nat) (nActualSpacing : Int) :
    targetForSpacing nBits nTargetSpacing timespan nActualSpacing =
      getCompact (clampedTarget (setCompact nBits)
        (((timespan : Int) / nTargetSpacing - 1) * nTargetSpacing + nActualSpacing +
          nActualSpacing)
        (((timespan : Int) / nTargetSpacing + 1) * nTargetSpacing)) := by
  rw [targetForSpacing, clampedTarget]
  congr 1
  split
  · next h => exact (min_eq_right h.le).symm
  · next h => exact (min_eq_left (not_lt.mp h)).symm

theorem spacing_divisor_pos (hspacing : 0 < nTargetSpacing) (timespan : Nat) :
    0 < ((timespan : Int) / nTargetSpacing + 1) * nTargetSpacing := by
  have hn : 0 ≤ (timespan : Int) / nTargetSpacing := by positivity
  have hS : (0 : Int) < nTargetSpacing := by omega
  positivity

theorem spacing_factor_bound (hspacing : nTargetSpacing ≤ 400) (timespan : Nat)
    {nActualSpacing : Int} (hlow : -2 ^ 32 ≤ nActualSpacing) :
    -2 ^ 34 < ((timespan : Int) / nTargetSpacing - 1) * nTargetSpacing + nActualSpacing +
      nActualSpacing := by
  have hn : 0 ≤ (timespan : Int) / nTargetSpacing * nTargetSpacing := by positivity
  rw [sub_mul, one_mul]
  omega

theorem targetForSpacing_self (hcanonical : getCompact (setCompact nBits) = nBits)
    (hlimit : setCompact nBits ≤ proofOfWorkLimit) (hspacing : 0 < nTargetSpacing)
    (timespan : Nat) : targetForSpacing nBits nTargetSpacing timespan nTargetSpacing = nBits := by
  have hdivisor := spacing_divisor_pos hspacing timespan
  have hfactor : ((timespan : Int) / nTargetSpacing - 1) * nTargetSpacing + nTargetSpacing +
      nTargetSpacing = ((timespan : Int) / nTargetSpacing + 1) * nTargetSpacing := by
    ring
  rw [targetForSpacing_eq, hfactor, clampedTarget, Int.mul_tdiv_cancel _ hdivisor.ne',
    min_eq_left hlimit]
  exact hcanonical

/-- For a canonical positive target that is not above the limit, a target spacing between 15 and
400 seconds and any timespan, the next target grows with the observed spacing, is the old one
for the spacing aimed at and is not above the limit; and it is what `GetNextTargetRequired`
returns after the first few blocks. -/
theorem targetForSpacing_laws (hcanonical : getCompact (setCompact nBits) = nBits)
    (hpos : 0 < setCompact nBits) (hlimit : setCompact nBits ≤ proofOfWorkLimit)
    (hspacing : 15 ≤ nTargetSpacing ∧ nTargetSpacing ≤ 400) (timespan : Nat) :
    (∀ nActualSpacing nActualSpacing' : Int, -2 ^ 32 ≤ nActualSpacing →
      nActualSpacing ≤ nActualSpacing' → nActualSpacing' < 2 ^ 32 →
        setCompact (targetForSpacing nBits nTargetSpacing timespan nActualSpacing) ≤
          setCompact (targetForSpacing nBits nTargetSpacing timespan nActualSpacing')) ∧
      targetForSpacing nBits nTargetSpacing timespan nTargetSpacing = nBits ∧
      (∀ nActualSpacing : Int, -2 ^ 32 ≤ nActualSpacing → nActualSpacing < 2 ^ 32 →
        setCompact (targetForSpacing nBits nTargetSpacing timespan nActualSpacing) ≤
          proofOfWorkLimit) ∧
      ∀ (params : Params) (float : FloatCode) (last prev prevPrev : CBlockIndex)
        (rest : List CBlockIndex), 2 < last.nHeight → prev.nBits = nBits →
        float.calculateBlocktime nBits = nTargetSpacing →
        targetTimespan params last.nHeight = timespan →
          getNextTargetRequired params float (last :: prev :: prevPrev :: rest) =
            targetForSpacing nBits nTargetSpacing timespan
              (prev.getBlockTime - prevPrev.getBlockTime) := by
  have hdivisor := spacing_divisor_pos (show 0 < nTargetSpacing by omega) timespan
  have hlength : ∀ {nActualSpacing : Int}, -2 ^ 32 ≤ nActualSpacing → _ :=
    fun {nActualSpacing} hlow => clampedTarget_length hpos hlimit
      (spacing_factor_bound hspacing.2 timespan hlow) hdivisor
  refine ⟨?_, ?_, ?_, ?_⟩
  · intro nActualSpacing nActualSpacing' hlow hle _
    rw [targetForSpacing_eq, targetForSpacing_eq]
    apply setCompact_getCompact_mono
    · apply clampedTarget_mono hpos.le hdivisor
      omega
    · exact hlength hlow
    · exact hlength (hlow.trans hle)
  · exact targetForSpacing_self hcanonical hlimit (by omega) timespan
  · intro nActualSpacing hlow _
    rw [targetForSpacing_eq]
    apply setCompact_getCompact_le_limit (min_le_right _ _)
    exact hlength hlow
  · intro params float last prev prevPrev rest hheight hbits hblocktime htimespan
    rw [getNextTargetRequired_eq params float rest hheight, hbits, hblocktime, htimespan]

/-- The easiest target with spacing 300, in the two days of the normal timespan: a block dated
far before its parent turns the target negative. -/
theorem easyTarget_laws :
    targetForSpacing 0x1f1fffff 300 (2 * 24 * 60 * 60) 300 = 0x1f1fffff ∧
      setCompact (targetForSpacing 0x1f1fffff 300 (2 * 24 * 60 * 60) (-100000)) < 0 ∧
      setCompact (targetForSpacing 0x1f1fffff 300 (2 * 24 * 60 * 60) (-100000)) ≤
        setCompact (targetForSpacing 0x1f1fffff 300 (2 * 24 * 60 * 60) 600) := by
  have h := targetForSpacing_laws (show getCompact (setCompact 0x1f1fffff) = 0x1f1fffff by
    decide +kernel) (by decide +kernel) (by decide +kernel)
    (show 15 ≤ 300 ∧ 300 ≤ 400 by decide) (2 * 24 * 60 * 60)
  exact ⟨h.2.1, by decide +kernel, h.1 _ _ (by decide) (by decide) (by decide)⟩

end Spacing

end Verium
