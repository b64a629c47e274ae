import Verium.Consensus.CheckBlock

/-!
The retarget rule along a chain of headers. `GetNextTargetRequired` scales the target of the
block before last by the spacing between two timestamps, clamps the result from above only,
and rounds it to the compact form; it stays a usable target exactly as long as the scaled
value stays positive.
-/

namespace Verium

open Lib

theorem setCompact_packed {len word : Nat} (hlen : len ≤ 255) (hword : word < 2 ^ 23) :
    setCompact (UInt32.ofNat (len * 2 ^ 24 + 0 + word)) = ofTopBytes len word ∧
      (1 ≤ len →
        setCompact (UInt32.ofNat (len * 2 ^ 24 + 2 ^ 23 + word)) =
          -(ofTopBytes len word : Int)) := by
  constructor
  · have hsign : (len * 2 ^ 24 + 0 + word).testBit 23 = false := by
      rw [Nat.testBit_eq_decide_div_mod_eq, decide_eq_false_iff_not]
      omega
    have hbits : (UInt32.ofNat (len * 2 ^ 24 + 0 + word)).toNat = len * 2 ^ 24 + 0 + word :=
      UInt32.toNat_ofNat_of_lt' (show len * 2 ^ 24 + 0 + word < 2 ^ 32 by omega)
    have hsize : (len * 2 ^ 24 + 0 + word) / 2 ^ 24 = len := by omega
    have hlow : (len * 2 ^ 24 + 0 + word) % 2 ^ 23 = word := by omega
    simp only [setCompact, hbits, hsign, hsize, hlow, Bool.false_eq_true, and_false, if_false]
  · intro hpos
    have hsign : (len * 2 ^ 24 + 2 ^ 23 + word).testBit 23 = true := by
      rw [Nat.testBit_eq_decide_div_mod_eq, decide_eq_true_eq]
      omega
    have hbits : (UInt32.ofNat (len * 2 ^ 24 + 2 ^ 23 + word)).toNat =
        len * 2 ^ 24 + 2 ^ 23 + word :=
      UInt32.toNat_ofNat_of_lt' (show len * 2 ^ 24 + 2 ^ 23 + word < 2 ^ 32 by omega)
    have hsize : (len * 2 ^ 24 + 2 ^ 23 + word) / 2 ^ 24 = len := by omega
    have hlow : (len * 2 ^ 24 + 2 ^ 23 + word) % 2 ^ 23 = word := by omega
    simp only [setCompact, hbits, hsign, hsize, hlow, hpos, and_self, if_true]

/-- What is read back after writing the compact form, for numbers whose length fits in a
byte. -/
theorem setCompact_getCompact {bn : Int} (h : signedByteLength bn.natAbs ≤ 255) :
    setCompact (getCompact bn) =
      let magnitude := ofTopBytes (signedByteLength bn.natAbs)
        (topBytes (signedByteLength bn.natAbs) bn.natAbs)
      if bn < 0 then -(magnitude : Int) else magnitude := by
  obtain ⟨hplain, hsigned⟩ := setCompact_packed h (topBytes_lt bn.natAbs)
  unfold getCompact
  dsimp only
  split
  next hneg =>
    have hne : bn.natAbs ≠ 0 := by omega
    exact hsigned (by simp [signedByteLength, hne])
  next => exact hplain

theorem setCompact_getCompact_pos {bn : Int} (hpos : 0 < bn)
    (h : signedByteLength bn.natAbs ≤ 255) :
    0 < setCompact (getCompact bn) ∧ setCompact (getCompact bn) ≤ bn := by
  have hne : bn.natAbs ≠ 0 := by omega
  have hlow := ofTopBytes_topBytes_pos hne
  have hhigh := ofTopBytes_topBytes_le (signedByteLength bn.natAbs) bn.natAbs
  rw [setCompact_getCompact h]
  simp only [show ¬ bn < 0 by omega, if_false]
  omega

theorem setCompact_getCompact_nonpos {bn : Int} (hnonpos : bn ≤ 0)
    (h : signedByteLength bn.natAbs ≤ 255) : setCompact (getCompact bn) ≤ 0 := by
  have hhigh := ofTopBytes_topBytes_le (signedByteLength bn.natAbs) bn.natAbs
  rw [setCompact_getCompact h]
  dsimp only
  split
  · omega
  · omega

section Chains

variable (params : Params) (float : FloatCode)

/-- A chain of index entries, tip first, grown from a genesis entry by adding headers that
pass `ContextualCheckBlockHeader` at some time. -/
inductive GrownChain : List CBlockIndex → Prop where
  | genesis {entry : CBlockIndex} : entry.nHeight = 0 → GrownChain [entry]
  | add {tip : CBlockIndex} {rest : List CBlockIndex} {ctx : HeaderContext}
      {header : CBlockHeader} {entry : CBlockIndex} :
      GrownChain (tip :: rest) →
      contextualCheckBlockHeader params float ctx header (tip :: rest) = .ok () →
      entry.nHeight = tip.nHeight + 1 → entry.nTime = header.nTime → entry.nBits = header.nBits →
      GrownChain (entry :: tip :: rest)

/-- The scaled target of the next block is at least `bound`: with `S` the target spacing, `n`
the number of spacings in the retarget window and `d` the time between the two blocks before
the tip, `bound` times `(n + 1) S` is at most the previous target times `(n - 1) S + 2 d`. -/
def RetargetAtLeast (bound : Int) : List CBlockIndex → Prop
  | pindexLast :: pindexPrev :: pindexPrevPrev :: _ =>
      let nTargetSpacing : Int := float.calculateBlocktime pindexPrev.nBits
      let nActualSpacing := pindexPrev.getBlockTime - pindexPrevPrev.getBlockTime
      let nInterval := (targetTimespan params pindexLast.nHeight : Int) / nTargetSpacing
      pindexLast.nHeight ≤ 2 ∨
        bound * ((nInterval + 1) * nTargetSpacing) ≤ setCompact pindexPrev.nBits *
          ((nInterval - 1) * nTargetSpacing + nActualSpacing + nActualSpacing)
  | _ => True

/-- The scaled target of the next block is at least one. -/
def RetargetPositive (chain : List CBlockIndex) : Prop :=
  RetargetAtLeast params float 1 chain

variable {params float}

instance (bound : Int) : DecidablePred (RetargetAtLeast params float bound)
  | _ :: _ :: _ :: _ => inferInstanceAs (Decidable (_ ∨ _))
  | [] | [_] | [_, _] => inferInstanceAs (Decidable True)

theorem contextualCheckBlockHeader_nBits {ctx : HeaderContext} {block : CBlockHeader}
    {chain : List CBlockIndex}
    (h : contextualCheckBlockHeader params float ctx block chain = .ok ()) :
    block.nBits = getNextTargetRequired params float chain := by
  cases chain with
  | nil => cases h
  | cons pindexPrev rest =>
    obtain ⟨_, hnBits, -⟩ := bind_eq_ok.mp h
    rwa [rejectIf_eq_ok, not_not] at hnBits

theorem GrownChain.nBits {entry : CBlockIndex} {rest : List CBlockIndex}
    (h : GrownChain params float (entry :: rest)) (hrest : rest ≠ []) :
    entry.nBits = getNextTargetRequired params float rest := by
  cases h with
  | genesis => exact absurd rfl hrest
  | add _ hcheck _ _ hbits =>
    exact hbits.trans (contextualCheckBlockHeader_nBits hcheck)

theorem GrownChain.tail {entry : CBlockIndex} {rest : List CBlockIndex}
    (h : GrownChain params float (entry :: rest)) (hrest : rest ≠ []) :
    GrownChain params float rest := by
  cases h with
  | genesis => exact absurd rfl hrest
  | add hgrown => exact hgrown

section NextTarget

variable (hspacing : ∀ nBits, 15 ≤ float.calculateBlocktime nBits ∧
  float.calculateBlocktime nBits ≤ 400)

theorem le_tdiv_iff {a b d : ℤ} (hb : 0 < b) (hd : 0 < d) : b ≤ a.tdiv d ↔ b * d ≤ a := by
  rcases le_or_gt 0 a with ha | ha
  · rw [Int.tdiv_eq_ediv_of_nonneg ha, Int.le_ediv_iff_mul_le hd]
  · have hneg : 0 ≤ (-a).tdiv d := Int.tdiv_nonneg (by omega) hd.le
    have hpos : 0 < b * d := by positivity
    rw [Int.neg_tdiv] at hneg
    omega

/-- Clamped from above, a scaled target is usable exactly when it is positive. -/
theorem targetInRange_clamp_iff {bnNew : Int}
    (hsmall : bnNew ≤ 0 → signedByteLength bnNew.natAbs ≤ 255) :
    targetInRange (getCompact (if (proofOfWorkLimit : Int) < bnNew then proofOfWorkLimit
      else bnNew)) = true ↔ 0 < bnNew := by
  have hlimit : (0 : Int) < proofOfWorkLimit ∧ (proofOfWorkLimit : Int) < 2 ^ 245 := by
    simp [proofOfWorkLimit]
  simp only [targetInRange, Bool.and_eq_true, decide_eq_true_eq]
  generalize hclamp : (if (proofOfWorkLimit : Int) < bnNew then (proofOfWorkLimit : Int)
    else bnNew) = target
  have hle : target ≤ proofOfWorkLimit := by
    rw [← hclamp]
    split <;> omega
  rcases le_or_gt bnNew 0 with hnonpos | hpos
  · have htarget : target = bnNew := by
      rw [← hclamp, if_neg (by omega)]
    have hdecoded := setCompact_getCompact_nonpos hnonpos (hsmall hnonpos)
    rw [htarget]
    constructor
    · rintro ⟨h, -⟩
      omega
    · intro h
      omega
  · have htarget : 0 < target := by
      rw [← hclamp]
      split <;> omega
    have hsize : signedByteLength target.natAbs ≤ 255 := by
      have hlen := signedByteLength_le (show target.natAbs < 2 ^ 245 by omega)
      omega
    obtain ⟨hlow, hhigh⟩ := setCompact_getCompact_pos htarget hsize
    exact iff_of_true ⟨hlow, hhigh.trans hle⟩ hpos

theorem two_pow_le_proofOfWorkLimit {k : Nat} (hk : k ≤ 244) :
    (2 : Int) ^ k ≤ proofOfWorkLimit := by
  calc
    (2 : Int) ^ k ≤ 2 ^ 244 := pow_le_pow_right₀ (by norm_num) hk
    _ ≤ proofOfWorkLimit := by simp [proofOfWorkLimit]

/-- A target between a power of two and the limit stays there when it is rounded. -/
theorem getCompact_atLeast {k : Nat} {target : Int} (hlow : 2 ^ k ≤ target)
    (hle : target ≤ proofOfWorkLimit) :
    targetInRange (getCompact target) = true ∧ 2 ^ k ≤ setCompact (getCompact target) := by
  have hpos : (0 : Int) < 2 ^ k := by positivity
  have hlimit : (proofOfWorkLimit : Int) < 2 ^ 245 := by simp [proofOfWorkLimit]
  have hlen := signedByteLength_le (show target.natAbs < 2 ^ 245 by omega)
  have hsize : signedByteLength target.natAbs ≤ 255 := by omega
  obtain ⟨hrounded, hround⟩ := setCompact_getCompact_pos (hpos.trans_le hlow) hsize
  refine ⟨by simp [targetInRange, hrounded, hround.trans hle], ?_⟩
  have hnat : 2 ^ k ≤ target.natAbs := by
    zify
    exact hlow.trans (le_abs_self target)
  have hkept := two_pow_le_round hnat
  rw [setCompact_getCompact hsize]
  simp only [show ¬ target < 0 by omega, if_false]
  exact_mod_cast hkept

/-- A scaled target of at least `2 ^ k` leaves a usable target of at least `2 ^ k`. -/
theorem RetargetAtLeast.next {k : Nat} (hk : k ≤ 244) {chain : List CBlockIndex}
    (hblocktime : ∀ e ∈ chain, 0 < float.calculateBlocktime e.nBits)
    (h : RetargetAtLeast params float (2 ^ k) chain) :
    targetInRange (getNextTargetRequired params float chain) = true ∧
      2 ^ k ≤ setCompact (getNextTargetRequired params float chain) := by
  have hlimit := two_pow_le_proofOfWorkLimit hk
  unfold getNextTargetRequired
  split
  next last prev prevPrev rest =>
    split
    · exact getCompact_atLeast hlimit le_rfl
    next hheight =>
      have hscaled : 2 ^ k ≤ retarget params float last.nHeight prev prevPrev := by
        rw [retarget, le_tdiv_iff (by positivity)]
        · exact h.resolve_left hheight
        · have hn : 0 ≤ (targetTimespan params last.nHeight : Int) /
              (float.calculateBlocktime prev.nBits : Int) := by positivity
          have hS : (0 : Int) < float.calculateBlocktime prev.nBits := by
            exact_mod_cast hblocktime prev (by simp)
          positivity
      apply getCompact_atLeast
      · split
        · exact hlimit
        · exact hscaled
      · split <;> omega
  next => exact getCompact_atLeast hlimit le_rfl

/-- A product with a factor that is negative but not far from zero keeps a short length. -/
theorem scaled_length {target factor divisor : ℤ} (htarget : 0 < target)
    (hlimit : target < 2 ^ 245) (hfactor : -2 ^ 34 < factor) (hdivisor : 0 < divisor)
    (hnonpos : (target * factor).tdiv divisor ≤ 0) :
    signedByteLength ((target * factor).tdiv divisor).natAbs ≤ 255 := by
  rcases le_or_gt 0 factor with hnonneg | hneg
  · have hzero : (target * factor).tdiv divisor = 0 :=
      le_antisymm hnonpos (Int.tdiv_nonneg (by positivity) hdivisor.le)
    simp [hzero, signedByteLength]
  · have hbound : ((target * factor).tdiv divisor).natAbs ≤ target.natAbs * factor.natAbs := by
      rw [← Int.natAbs_mul]
      exact Int.natAbs_tdiv_le_natAbs _ _
    have hlen := signedByteLength_mul_le hbound (show target.natAbs < 2 ^ 245 by omega)
      (show factor.natAbs < 2 ^ 34 by omega)
    omega

include hspacing

/-- A target that shrinks to zero or below does not shrink far: two timestamps differ by less
than `2 ^ 32`. -/
theorem retarget_length {nHeight : Nat} {prev prevPrev : CBlockIndex}
    (hprev : targetInRange prev.nBits = true)
    (hnonpos : retarget params float nHeight prev prevPrev ≤ 0) :
    signedByteLength (retarget params float nHeight prev prevPrev).natAbs ≤ 255 := by
  obtain ⟨hS, hS'⟩ := hspacing prev.nBits
  obtain ⟨hpos, hmax⟩ : 0 < setCompact prev.nBits ∧ setCompact prev.nBits ≤ proofOfWorkLimit := by
    simpa [targetInRange] using hprev
  have htime : prev.nTime.toNat < 2 ^ 32 := prev.nTime.toNat_lt
  have htime' : prevPrev.nTime.toNat < 2 ^ 32 := prevPrev.nTime.toNat_lt
  have hlimit : setCompact prev.nBits < 2 ^ 245 := by
    simp only [proofOfWorkLimit] at hmax
    omega
  unfold retarget at hnonpos ⊢
  simp only [CBlockIndex.getBlockTime] at hnonpos ⊢
  have hn : 0 ≤ (targetTimespan params nHeight : Int) /
      (float.calculateBlocktime prev.nBits : Int) := by positivity
  generalize (targetTimespan params nHeight : Int) /
    (float.calculateBlocktime prev.nBits : Int) = n at *
  have hspan : 0 ≤ n * (float.calculateBlocktime prev.nBits : Int) := by positivity
  refine scaled_length hpos hlimit ?_ ?_ hnonpos
  · rw [sub_mul, one_mul]
    omega
  · rw [add_mul, one_mul]
    omega

/-- One step: on a tip whose parent has a usable target, the next target is usable exactly
when the scaled target is positive. -/
theorem targetInRange_next_iff {last prev prevPrev : CBlockIndex} {rest : List CBlockIndex}
    (hprev : targetInRange prev.nBits = true) :
    targetInRange (getNextTargetRequired params float (last :: prev :: prevPrev :: rest)) = true ↔
      RetargetPositive params float (last :: prev :: prevPrev :: rest) := by
  have hS := hspacing prev.nBits
  simp only [getNextTargetRequired, RetargetPositive, RetargetAtLeast]
  by_cases hheight : last.nHeight ≤ 2
  · rw [if_pos hheight]
    exact iff_of_true (by decide +kernel) (.inl hheight)
  · rw [if_neg hheight, or_iff_right hheight,
      targetInRange_clamp_iff (retarget_length hspacing hprev), ← Int.add_one_le_iff, zero_add,
      retarget]
    refine le_tdiv_iff one_pos ?_
    have hn : 0 ≤ (targetTimespan params last.nHeight : Int) /
        (float.calculateBlocktime prev.nBits : Int) := by positivity
    have hS' : (0 : Int) < float.calculateBlocktime prev.nBits := by omega
    positivity

/-- On a tip of a grown chain, all of whose earlier tips left a usable target, the next
target is usable exactly when the scaled target is positive. -/
theorem GrownChain.next_iff {last : CBlockIndex} {rest : List CBlockIndex}
    (hgrown : GrownChain params float (last :: rest)) (hbefore : ∀ tips, tips <:+ rest → tips ≠ [] →
      targetInRange (getNextTargetRequired params float tips) = true) :
    targetInRange (getNextTargetRequired params float (last :: rest)) = true ↔
      RetargetPositive params float (last :: rest) := by
  match rest, hgrown, hbefore with
  | [], _, _ => exact iff_of_true (by simp only [getNextTargetRequired]; decide +kernel) trivial
  | [_], _, _ => exact iff_of_true (by simp only [getNextTargetRequired]; decide +kernel) trivial
  | prev :: prevPrev :: older, hgrown, hbefore =>
    -- the target of the block before the tip is what was required on top of the one before
    have hbits := (hgrown.tail (by simp)).nBits (by simp)
    apply targetInRange_next_iff hspacing
    rw [hbits]
    exact hbefore _ (List.suffix_cons _ _) (by simp)

/-- Along a chain grown from genesis, every tip has left a usable next target exactly when
every tip has kept the scaled target positive. -/
theorem targetInRange_iff_retargetPositive {chain : List CBlockIndex}
    (hgrown : GrownChain params float chain) :
    (∀ tips, tips <:+ chain → tips ≠ [] →
        targetInRange (getNextTargetRequired params float tips) = true) ↔
      ∀ tips, tips <:+ chain → tips ≠ [] → RetargetPositive params float tips := by
  induction chain with
  | nil => cases hgrown
  | cons last rest ih =>
      have hrest : (∀ tips, tips <:+ rest → tips ≠ [] →
          targetInRange (getNextTargetRequired params float tips) = true) ↔
          ∀ tips, tips <:+ rest → tips ≠ [] → RetargetPositive params float tips := by
        cases rest with
        | nil => simp
        | cons prev older => exact ih (hgrown.tail (by simp))
      simp only [List.suffix_cons_iff, forall_eq_or_imp, ne_eq, reduceCtorEq, not_false_eq_true,
        forall_const] at hrest ⊢
      constructor
      · rintro ⟨hlast, hbefore⟩
        exact ⟨(hgrown.next_iff hspacing hbefore).mp hlast, hrest.mp hbefore⟩
      · rintro ⟨hlast, hbefore⟩
        exact ⟨(hgrown.next_iff hspacing (hrest.mpr hbefore)).mpr hlast, hrest.mpr hbefore⟩

end NextTarget

end Chains

/-- An entry with the easiest target, at a height and a number of seconds after the genesis
block of the main network. -/
def easyEntry (nHeight seconds : Nat) : CBlockIndex :=
  { CBlockIndex.ofHeader 0
      { CBlockHeader.null with
        nTime := UInt32.ofNat (1472669240 + seconds)
        nBits := 0x1f1fffff } with
    nHeight }

/-- Four blocks after genesis, the second of them dated a day ahead of the others. -/
def backdatedChain : List CBlockIndex :=
  [easyEntry 4 3, easyEntry 3 2, easyEntry 2 100000, easyEntry 1 1, easyEntry 0 0]

theorem easyEntry_add {nHeight seconds : Nat} {tip : CBlockIndex} {rest : List CBlockIndex}
    (hgrown : GrownChain { hashGenesisBlock := 0 } easyFloat (tip :: rest))
    (hheight : nHeight = tip.nHeight + 1)
    (hcheck : contextualCheckBlockHeader { hashGenesisBlock := 0 } easyFloat
      ⟨1472669240 + 100000, none⟩
      { CBlockHeader.null with
        nTime := UInt32.ofNat (1472669240 + seconds)
        nBits := 0x1f1fffff } (tip :: rest) = .ok ()) :
    GrownChain { hashGenesisBlock := 0 } easyFloat (easyEntry nHeight seconds :: tip :: rest) :=
  .add hgrown hcheck hheight rfl rfl

/-- Headers that all pass `ContextualCheckBlockHeader` can lead to a tip whose next target is
negative, so that no block at all can follow. -/
theorem backdatedChain_dead :
    GrownChain { hashGenesisBlock := 0 } easyFloat backdatedChain ∧
      setCompact (getNextTargetRequired { hashGenesisBlock := 0 } easyFloat backdatedChain) < 0 ∧
      ∀ hash, checkProofOfWork hash
        (getNextTargetRequired { hashGenesisBlock := 0 } easyFloat backdatedChain) = false := by
  have hrange : targetInRange
      (getNextTargetRequired { hashGenesisBlock := 0 } easyFloat backdatedChain) = false := by
    decide +kernel
  refine ⟨?_, by decide +kernel, fun hash => by rw [checkProofOfWork, hrange, Bool.false_and]⟩
  refine easyEntry_add (easyEntry_add (easyEntry_add (easyEntry_add (.genesis rfl) rfl ?_)
    rfl ?_) rfl ?_) rfl ?_
  all_goals decide +kernel

theorem backdatedChain_iff :
    (∀ tips, tips <:+ backdatedChain.tail → tips ≠ [] →
        targetInRange (getNextTargetRequired { hashGenesisBlock := 0 } easyFloat tips) = true) ↔
      ∀ tips, tips <:+ backdatedChain.tail → tips ≠ [] →
        RetargetPositive { hashGenesisBlock := 0 } easyFloat tips := by
  refine targetInRange_iff_retargetPositive (fun _ => by simp [easyFloat]) ?_
  refine easyEntry_add (easyEntry_add (easyEntry_add (.genesis rfl) rfl ?_) rfl ?_) rfl ?_
  all_goals decide +kernel

end Verium
