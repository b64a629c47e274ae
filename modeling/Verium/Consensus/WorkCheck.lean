import Verium.Consensus.CheckBlock

/-!
The proof-of-work test of `CheckBlock` when the scratch buffer of `scryptHash` cannot be
allocated: the failure is a work hash of zero, which is below every target.
-/

namespace Verium

open Lib

/-- With a target in range, `CheckProofOfWork` compares the hash with the number that `nBits`
encodes. -/
theorem checkProofOfWork_eq_true {hash : UInt256} {nBits : UInt32} :
    checkProofOfWork hash nBits = true ↔
      targetInRange nBits = true ∧ (hash.toNat : Int) ≤ setCompact nBits := by
  rw [checkProofOfWork, Bool.and_eq_true, decide_eq_true_eq]
  refine and_congr_right fun hrange => ?_
  obtain ⟨hpos, hmax⟩ : 0 < setCompact nBits ∧ setCompact nBits ≤ proofOfWorkLimit := by
    simpa [targetInRange] using hrange
  have hlimit : (setCompact nBits).natAbs < 2 ^ 256 := by
    simp only [proofOfWorkLimit] at hmax
    omega
  rw [BitVec.le_def, getUInt256, BitVec.toNat_ofNat, Nat.mod_eq_of_lt hlimit]
  omega

section FailedAllocation

variable (crypto : Crypto) (ctx : CheckContext) (block : CBlock) (fCheckMerkleRoot : Bool)

theorem checkBlock_work_isOk_iff (hunchecked : block.fChecked = false) :
    (∃ checked, checkBlock crypto ctx block true fCheckMerkleRoot = .ok checked) ↔
      checkProofOfWork (block.getBlockHeader.getWorkHash crypto ctx.scratchbuf) block.nBits =
          true ∧
        ∃ checked, checkBlock crypto ctx block false fCheckMerkleRoot = .ok checked := by
  simp only [checkBlock, hunchecked, Bool.false_eq_true, if_false, bind_eq_ok, checkWhen_eq_ok,
    checkBlockWork, rejectIf_eq_ok, not_not]
  constructor
  · rintro ⟨checked, _, hwork, u, hmerkle, v, htxs, -⟩
    exact ⟨hwork trivial, _, (), by simp, u, hmerkle, v, htxs, rfl⟩
  · rintro ⟨hwork, checked, _, -, u, hmerkle, v, htxs, -⟩
    exact ⟨_, (), fun _ => hwork, u, hmerkle, v, htxs, rfl⟩

/-- Whatever the scrypt function is, acceptance by `CheckBlock` proves work exactly when the
memory was obtained, or the block is rejected without looking at the hash. -/
theorem checkBlock_proves_work_iff (hunchecked : block.fChecked = false) :
    (∀ scrypt : Bytes → UInt256,
        (∃ checked, checkBlock { crypto with scrypt } ctx block true fCheckMerkleRoot =
          .ok checked) →
        ((scrypt block.getBlockHeader.serialize).toNat : Int) ≤ setCompact block.nBits) ↔
      ctx.scratchbuf = true ∨ targetInRange block.nBits = false ∨
        ¬ ∃ checked, checkBlock crypto ctx block false fCheckMerkleRoot = .ok checked := by
  simp only [checkBlock_work_isOk_iff _ _ _ _ hunchecked, checkProofOfWork_eq_true,
    CBlockHeader.getWorkHash, scryptHash]
  -- the other checks do not use scrypt
  have hrest : ∀ scrypt, checkBlock { crypto with scrypt } ctx block false fCheckMerkleRoot =
      checkBlock crypto ctx block false fCheckMerkleRoot := by
    intro scrypt
    have hmerkle : checkBlockMerkleRoot { crypto with scrypt } block =
        checkBlockMerkleRoot crypto block := rfl
    simp only [checkBlock, checkWhen, Bool.false_eq_true, if_false, hmerkle]
  simp only [hrest]
  cases hbuf : ctx.scratchbuf with
  | true =>
    refine iff_of_true ?_ (.inl rfl)
    rintro scrypt ⟨⟨-, hwork⟩, -⟩
    exact hwork
  | false =>
    simp only [Bool.false_eq_true, if_false, false_or]
    constructor
    · intro hall
      by_contra hpass
      rw [not_or, Bool.not_eq_false, not_not] at hpass
      obtain ⟨hrange, hchecked⟩ := hpass
      obtain ⟨hpos, hmax⟩ : 0 < setCompact block.nBits ∧
          setCompact block.nBits ≤ proofOfWorkLimit := by
        simpa [targetInRange] using hrange
      -- the largest possible hash is above every target
      have hwork := hall (fun _ => BitVec.allOnes 256) ⟨⟨hrange, hpos.le⟩, hchecked⟩
      rw [BitVec.toNat_allOnes] at hwork
      simp only [proofOfWorkLimit] at hmax
      omega
    · rintro (hrange | hfail) scrypt ⟨⟨hrange', -⟩, hchecked⟩
      · rw [hrange] at hrange'
        cases hrange'
      · exact absurd hchecked hfail

end FailedAllocation

/-- A node that cannot allocate accepts a block whose hash is the largest possible. -/
theorem checkBlock_without_memory_accepts :
    (sampleBlock [sampleCoinbase]).fChecked = false ∧
      (∃ checked, checkBlock { sampleCrypto with scrypt := fun _ => BitVec.allOnes 256 }
        { scratchbuf := false, tipHeight := none } (sampleBlock [sampleCoinbase]) true true =
          .ok checked) ∧
      setCompact (sampleBlock [sampleCoinbase]).nBits < ((BitVec.allOnes 256).toNat : Int) :=
  ⟨rfl, failure?_eq_none.mp (by decide +kernel), by decide +kernel⟩

/-- With the memory the sample block proves work, and without it it does not. -/
theorem sampleBlock_proves_work :
    (∀ scrypt : Bytes → UInt256,
        (∃ checked, checkBlock { sampleCrypto with scrypt }
          { scratchbuf := true, tipHeight := none } (sampleBlock [sampleCoinbase]) true true =
            .ok checked) →
        ((scrypt (sampleBlock [sampleCoinbase]).getBlockHeader.serialize).toNat : Int) ≤
          setCompact (sampleBlock [sampleCoinbase]).nBits) ∧
      ¬ ∀ scrypt : Bytes → UInt256,
        (∃ checked, checkBlock { sampleCrypto with scrypt }
          { scratchbuf := false, tipHeight := none } (sampleBlock [sampleCoinbase]) true true =
            .ok checked) →
        ((scrypt (sampleBlock [sampleCoinbase]).getBlockHeader.serialize).toNat : Int) ≤
          setCompact (sampleBlock [sampleCoinbase]).nBits := by
  have hpasses : ∃ checked, checkBlock sampleCrypto { scratchbuf := false, tipHeight := none }
      (sampleBlock [sampleCoinbase]) false true = .ok checked :=
    failure?_eq_none.mp (by decide +kernel)
  have hrange : targetInRange (sampleBlock [sampleCoinbase]).nBits = true := by decide +kernel
  refine ⟨(checkBlock_proves_work_iff sampleCrypto _ _ true rfl).mpr (.inl rfl), fun hall => ?_⟩
  rcases (checkBlock_proves_work_iff sampleCrypto _ _ true rfl).mp hall with hbuf | hout | hfails
  · cases hbuf
  · rw [hrange] at hout
    cases hout
  · exact hfails hpasses

end Verium
