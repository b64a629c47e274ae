import Verium.Consensus.CheckBlock
import Verium.Lib.Merkle

/-!
The Merkle root of a block commits to its transactions. `ComputeMerkleRoot` reports every list
that has two equal neighbours on some level; of the others no two have one root, as long as the
hashes taken on the way do not collide. The root of the empty list is the null hash, which a list
of one leaf can have as well, so the empty list is set apart.
-/

namespace Verium

open Lib

/-- The hash of two neighbours. -/
def merklePair (hash : Bytes → UInt256) (a b : UInt256) : UInt256 :=
  hash (serUInt256 a ++ serUInt256 b)

section Loop

variable {hash : Bytes → UInt256} {hashes : List UInt256} {root : UInt256}

theorem merkleLevel_eq : merkleLevel hash hashes = Merkle.level (merklePair hash) hashes := by
  induction hashes using merkleLevel.induct with
  | case1 a b rest ih =>
    rw [merkleLevel, ih]
    rfl
  | case2 a => rfl
  | case3 => rfl

theorem merkleMutation_eq_true : merkleMutation hashes = true ↔ Merkle.Mutated hashes := by
  induction hashes using merkleMutation.induct with
  | case1 a b rest ih => simp [merkleMutation, Merkle.Mutated, ih]
  | case2 l h =>
    unfold merkleMutation Merkle.Mutated
    split <;> simp_all

theorem computeMerkleRootLoop_mutated (hash : Bytes → UInt256) (fuel : Nat)
    (hashes : List UInt256) : (computeMerkleRootLoop hash fuel hashes true).2 = true := by
  induction fuel generalizing hashes with
  | zero =>
    match hashes with
    | [] => rfl
    | [_] => rfl
    | _ :: _ :: _ => rfl
  | succ fuel ih =>
    match hashes with
    | [] => rfl
    | [_] => rfl
    | a :: b :: rest => exact ih _

/-- A root without mutation is reached over levels that are not mutated. -/
theorem computeMerkleRootLoop_rooted {fuel : Nat} (hne : hashes ≠ []) (hfuel : hashes.length ≤ fuel)
    (h : computeMerkleRootLoop hash fuel hashes false = (root, false)) :
    ∃ n, Merkle.Rooted (merklePair hash) n hashes root := by
  induction fuel generalizing hashes with
  | zero => exact absurd (List.eq_nil_of_length_eq_zero (Nat.le_zero.mp hfuel)) hne
  | succ fuel ih =>
    match hashes, hne, hfuel, h with
    | [r], _, _, h =>
      cases h
      exact ⟨0, .leaf root⟩
    | a :: b :: rest, _, hfuel, h =>
      have hstep : computeMerkleRootLoop hash fuel (merkleLevel hash (a :: b :: rest))
          (false || merkleMutation (a :: b :: rest)) = (root, false) := h
      have hmutation : merkleMutation (a :: b :: rest) = false := by
        cases hm : merkleMutation (a :: b :: rest) with
        | false => rfl
        | true =>
          have htrue := computeMerkleRootLoop_mutated hash fuel
            (merkleLevel hash (a :: b :: rest))
          rw [hm, Bool.false_or] at hstep
          rw [hstep] at htrue
          cases htrue
      have hlen := merkleLevel_length hash (a :: b :: rest)
      simp only [List.length_cons] at hlen hfuel
      rw [hmutation, Bool.false_or] at hstep
      obtain ⟨n, hn⟩ := ih (List.ne_nil_of_length_pos (by omega)) (by omega) hstep
      rw [merkleLevel_eq] at hn
      refine ⟨n + 1, .node ?_ ?_ hn⟩
      · simp
      · rw [← merkleMutation_eq_true, hmutation]
        exact Bool.false_ne_true

end Loop

/-- Lists that are not empty, and that `ComputeMerkleRoot` does not report as mutated, are equal
if their roots are. -/
theorem eq_of_computeMerkleRoot_eq {hash : Bytes → UInt256} {hashes hashes' : List UInt256}
    (hne : hashes ≠ []) (hne' : hashes' ≠ [])
    (hfree : Merkle.CollisionFree (merklePair hash) hashes hashes')
    (hmut : (computeMerkleRoot hash hashes).2 = false)
    (hmut' : (computeMerkleRoot hash hashes').2 = false)
    (hroot : (computeMerkleRoot hash hashes).1 = (computeMerkleRoot hash hashes').1) :
    hashes = hashes' := by
  have hrooted : ∃ n, Merkle.Rooted (merklePair hash) n hashes (computeMerkleRoot hash hashes).1 :=
    computeMerkleRootLoop_rooted hne le_rfl (Prod.ext rfl hmut)
  obtain ⟨n, hn⟩ := hrooted
  obtain ⟨n', hn'⟩ := computeMerkleRootLoop_rooted hne' le_rfl (Prod.ext rfl hmut')
  rw [hroot] at hn
  exact hn.unique hfree hn'

section CheckBlock

variable {crypto : Crypto} {ctx : CheckContext} {block checked : CBlock} {fCheckPOW : Bool}

/-- What the Merkle checks of `CheckBlock` leave for a block that passes. -/
theorem checkBlock_merkleRoot (hunchecked : block.fChecked = false)
    (h : checkBlock crypto ctx block fCheckPOW true = .ok checked) :
    block.vtx ≠ [] ∧ (blockMerkleRoot crypto block.vtx).1 = block.hashMerkleRoot ∧
      (blockMerkleRoot crypto block.vtx).2 = false := by
  unfold checkBlock at h
  rw [if_neg (by rw [hunchecked]; exact Bool.false_ne_true)] at h
  obtain ⟨⟨⟩, -, h⟩ := bind_eq_ok.mp h
  obtain ⟨⟨⟩, hroot, h⟩ := bind_eq_ok.mp h
  obtain ⟨⟨⟩, htxs, -⟩ := bind_eq_ok.mp h
  have hroot := checkWhen_eq_ok.mp hroot rfl
  unfold checkBlockMerkleRoot at hroot
  obtain ⟨⟨⟩, hequal, hmutated⟩ := bind_eq_ok.mp hroot
  refine ⟨?_, (not_not.mp (rejectIf_eq_ok.mp hequal)).symm, ?_⟩
  · obtain ⟨⟨⟩, hlength, -⟩ := bind_eq_ok.mp htxs
    intro hnil
    exact rejectIf_eq_ok.mp hlength (.inl hnil)
  · exact Bool.eq_false_iff.mpr (rejectIf_eq_ok.mp hmutated)

end CheckBlock

/-- Two lists of leaf hashes, both empty or both not, that are not reported as mutated are equal
if their roots are; and so two blocks with one Merkle root that both pass `CheckBlock` have the
same transactions. -/
theorem merkleRoot_commits (crypto : Crypto) :
    (∀ (hash : Bytes → UInt256) (hashes hashes' : List UInt256),
      (hashes = [] ↔ hashes' = []) →
      Merkle.CollisionFree (merklePair hash) hashes hashes' →
      (computeMerkleRoot hash hashes).2 = false →
      (computeMerkleRoot hash hashes').2 = false →
      (computeMerkleRoot hash hashes).1 = (computeMerkleRoot hash hashes').1 →
        hashes = hashes') ∧
    ∀ (ctx ctx' : CheckContext) (block block' checked checked' : CBlock)
      (fCheckPOW fCheckPOW' : Bool),
      block.fChecked = false → block'.fChecked = false →
      checkBlock crypto ctx block fCheckPOW true = .ok checked →
      checkBlock crypto ctx' block' fCheckPOW' true = .ok checked' →
      block.hashMerkleRoot = block'.hashMerkleRoot →
      Merkle.CollisionFree (merklePair crypto.hash) (block.vtx.map (CTransaction.getHash crypto))
        (block'.vtx.map (CTransaction.getHash crypto)) →
      Set.InjOn (CTransaction.getHash crypto) {tx | tx ∈ block.vtx ∨ tx ∈ block'.vtx} →
        block.vtx = block'.vtx := by
  constructor
  · intro hash hashes hashes' hempty hfree hmut hmut' hroot
    rcases eq_or_ne hashes [] with hnil | hne
    · rw [hnil, hempty.mp hnil]
    · exact eq_of_computeMerkleRoot_eq hne (mt hempty.mpr hne) hfree hmut hmut' hroot
  · intro ctx ctx' block block' checked checked' fCheckPOW fCheckPOW' hunchecked hunchecked'
      hcheck hcheck' hheader hfree hinj
    obtain ⟨hne, hroot, hmut⟩ := checkBlock_merkleRoot hunchecked hcheck
    obtain ⟨hne', hroot', hmut'⟩ := checkBlock_merkleRoot hunchecked' hcheck'
    have hhashes : block.vtx.map (CTransaction.getHash crypto) =
        block'.vtx.map (CTransaction.getHash crypto) := by
      apply eq_of_computeMerkleRoot_eq _ _ hfree hmut hmut'
      · exact hroot.trans (hheader.trans hroot'.symm)
      · exact mt List.map_eq_nil_iff.mp hne
      · exact mt List.map_eq_nil_iff.mp hne'
    exact Merkle.map_eq_of_injOn hinj (fun _ => .inl) (fun _ => .inr) hhashes

theorem collisionFree_of_length {H : UInt256 → UInt256 → UInt256} {hashes hashes' : List UInt256}
    (h : hashes.length ≤ 1) (h' : hashes'.length ≤ 1) : Merkle.CollisionFree H hashes hashes' := by
  have hnone : ∀ p, ¬ (Merkle.Hashed H hashes p ∨ Merkle.Hashed H hashes' p) := by
    rintro p (hp | hp)
    · exact absurd hp.one_lt_length (Nat.not_lt.mpr h)
    · exact absurd hp.one_lt_length (Nat.not_lt.mpr h')
  exact ⟨fun p hp => absurd hp (hnone p), fun p hp => absurd hp (hnone p)⟩

theorem sampleBlocks_commit :
    ([1, 2] : List UInt256) = [1, 2] ∧
      (sampleBlock [sampleCoinbase]).vtx =
        { sampleBlock [sampleCoinbase] with nNonce := 1 }.vtx := by
  obtain ⟨hlists, hblocks⟩ := merkleRoot_commits sampleCrypto
  constructor
  · have honly : ∀ p, Merkle.Hashed (merklePair sampleCrypto.hash) [1, 2] p → p = (1, 2) := by
      intro p hp
      cases hp with
      | here _ hmem => exact List.mem_singleton.mp hmem
      | up _ hup => exact absurd hup.one_lt_length (lt_irrefl 1)
    apply hlists sampleCrypto.hash [1, 2] [1, 2] Iff.rfl _ (by decide +kernel)
      (by decide +kernel) rfl
    constructor
    · intro p hp q hq _
      rw [honly p (or_self_iff.mp hp), honly q (or_self_iff.mp hq)]
    · intro p hp
      rw [honly p (or_self_iff.mp hp)]
      decide +kernel
  · have hchecked : ∀ block : CBlock,
        (checkBlock sampleCrypto ⟨true, none, 2147483647⟩ block true true).toOption.isSome →
        ∃ checked, checkBlock sampleCrypto ⟨true, none, 2147483647⟩ block true true =
          .ok checked := by
      intro block h
      obtain ⟨checked, h⟩ := Option.isSome_iff_exists.mp h
      exact ⟨checked, toOption_eq_some.mp h⟩
    obtain ⟨checked, hcheck⟩ := hchecked (sampleBlock [sampleCoinbase]) (by decide +kernel)
    obtain ⟨checked', hcheck'⟩ :=
      hchecked { sampleBlock [sampleCoinbase] with nNonce := 1 } (by decide +kernel)
    apply hblocks _ _ _ _ _ _ _ _ rfl rfl hcheck hcheck' rfl
    · exact collisionFree_of_length le_rfl le_rfl
    · intro tx htx tx' htx' _
      exact (List.mem_singleton.mp (or_self_iff.mp htx)).trans
        (List.mem_singleton.mp (or_self_iff.mp htx')).symm

/-- The empty list has the root of the list whose only leaf is the null hash. -/
theorem emptyList_merkleRoot :
    ∃ hashes hashes' : List UInt256,
      Merkle.CollisionFree (merklePair sampleCrypto.hash) hashes hashes' ∧
      (computeMerkleRoot sampleCrypto.hash hashes).2 = false ∧
      (computeMerkleRoot sampleCrypto.hash hashes').2 = false ∧
      (computeMerkleRoot sampleCrypto.hash hashes).1 =
        (computeMerkleRoot sampleCrypto.hash hashes').1 ∧
      hashes ≠ hashes' :=
  ⟨[], [0], collisionFree_of_length (Nat.zero_le 1) le_rfl, rfl, rfl, rfl, by decide⟩

end Verium
