import Verium.Consensus.MerkleBlock

/-!
What a partial Merkle tree proves. The walk that reads a tree follows the walk that built it, so a
tree that was built gives back the root and the matched transactions. A tree from elsewhere may
contain anything; but if the root it leads to is that of the block, every pair that was hashed on
the way is one of the block's, down to the transactions it reports.
-/

namespace Verium

open Lib Lib.Merkle

theorem calcTreeWidth_eq (nTransactions height : Nat) :
    calcTreeWidth nTransactions height = width nTransactions height := by
  rw [calcTreeWidth, Nat.shiftLeft_eq, Nat.one_mul, Nat.shiftRight_eq_div_pow]
  rfl

theorem treeHeightLoop_spec {n fuel nHeight : Nat} (hbelow : ∀ h < nHeight, 1 < width n h)
    (hfuel : n ≤ 2 ^ (nHeight + fuel)) :
    width n (treeHeightLoop n fuel nHeight) ≤ 1 ∧
      ∀ h < treeHeightLoop n fuel nHeight, 1 < width n h := by
  induction fuel generalizing nHeight with
  | zero => exact ⟨width_le_one_iff.mpr hfuel, hbelow⟩
  | succ fuel ih =>
    rw [treeHeightLoop, calcTreeWidth_eq]
    split
    · next hwide =>
      apply ih
      · intro h hlt
        rcases Nat.lt_succ_iff_lt_or_eq.mp hlt with hlt | rfl
        · exact hbelow h hlt
        · exact hwide
      · rwa [Nat.add_right_comm]
    · next hnarrow => exact ⟨not_lt.mp hnarrow, hbelow⟩

theorem treeHeight_spec (n : Nat) :
    width n (treeHeight n) ≤ 1 ∧ ∀ h < treeHeight n, 1 < width n h := by
  apply treeHeightLoop_spec
  · intro h hlt
    cases hlt
  · rw [Nat.zero_add]
    exact Nat.lt_two_pow_self.le

theorem parentOfMatch_eq (nTransactions : Nat) (vMatch : List Bool) (height pos : Nat) :
    parentOfMatch nTransactions vMatch height pos =
      (below nTransactions height pos).any fun p => vMatch.getD p false := by
  have hcount : (pos + 1) <<< height - pos <<< height = 2 ^ height := by
    rw [Nat.shiftLeft_eq, Nat.shiftLeft_eq, Nat.add_one_mul, Nat.add_sub_cancel_left]
  rw [parentOfMatch, hcount, Nat.shiftLeft_eq, below, List.any_filter]

section Nodes

variable {hash : Bytes → UInt256} {vTxid : List UInt256} {height pos : Nat}

/-- The hash of a node of the block's tree. -/
def nodeHash (hash : Bytes → UInt256) (vTxid : List UInt256) (height pos : Nat) : UInt256 :=
  (nodeAt (merklePair hash) vTxid height pos).getD 0

theorem nodeAt_eq (hash : Bytes → UInt256) (hpos : pos < width vTxid.length height) :
    nodeAt (merklePair hash) vTxid height pos = some (nodeHash hash vTxid height pos) := by
  obtain ⟨a, ha⟩ := exists_nodeAt (H := merklePair hash) hpos
  rw [nodeHash, ha]
  rfl

theorem left_lt_width (hpos : pos < width vTxid.length (height + 1)) :
    2 * pos < width vTxid.length height := by
  rw [width_succ] at hpos
  omega

theorem nodeHash_succ (hpos : pos < width vTxid.length (height + 1)) :
    nodeHash hash vTxid (height + 1) pos = merklePair hash (nodeHash hash vTxid height (2 * pos))
      (if 2 * pos + 1 < width vTxid.length height then
        nodeHash hash vTxid height (2 * pos + 1)
      else nodeHash hash vTxid height (2 * pos)) := by
  have hnode : nodeHash hash vTxid (height + 1) pos =
      ((nodeAt (merklePair hash) vTxid height (2 * pos)).map fun a =>
        merklePair hash a
          ((nodeAt (merklePair hash) vTxid height (2 * pos + 1)).getD a)).getD 0 := by
    rw [nodeHash, nodeAt_succ]
  rw [hnode, nodeAt_eq hash (left_lt_width hpos)]
  split
  · next hin =>
    rw [nodeAt_eq hash hin]
    rfl
  · next hout =>
    rw [nodeAt_eq_none.mpr (not_lt.mp hout)]
    rfl

theorem calcHash_ok (hne : vTxid ≠ []) (hpos : pos < width vTxid.length height) :
    calcHash hash vTxid.length vTxid height pos = .ok (nodeHash hash vTxid height pos) := by
  have hlen : vTxid.length ≠ 0 := mt List.eq_nil_of_length_eq_zero hne
  induction height generalizing pos with
  | zero =>
    rw [calcHash, assertThat_of hlen, ok_bind, nodeHash, nodeAt_zero,
      List.getD_eq_getElem?_getD]
    rfl
  | succ height ih =>
    rw [calcHash, assertThat_of hlen, ok_bind, ih (left_lt_width hpos), ok_bind, calcTreeWidth_eq,
      nodeHash_succ hpos]
    split
    · next hin =>
      rw [ih hin, ok_bind]
      rfl
    · rfl

theorem traverseAndBuild_ok (hne : vTxid ≠ []) (vMatch : List Bool)
    (hpos : pos < width vTxid.length height) (vBits : List Bool) (vHash : List UInt256) :
    traverseAndBuild hash vTxid.length vTxid vMatch height pos (vBits, vHash) =
      .ok (vBits ++ proofBits vTxid.length (fun p => vMatch.getD p false) height pos,
        vHash ++ proofHashes vTxid.length (fun p => vMatch.getD p false)
          (nodeHash hash vTxid) height pos) := by
  induction height generalizing pos vBits vHash with
  | zero =>
    have hlt : pos < vTxid.length := by rwa [width_zero] at hpos
    rw [traverseAndBuild, calcHash_ok hne hpos, ok_bind, parentOfMatch_eq, below_zero hlt]
    simp [proofBits, proofHashes, pure, Except.pure]
  | succ height ih =>
    rw [traverseAndBuild, parentOfMatch_eq, proofBits, proofHashes]
    cases hany : (below vTxid.length (height + 1) pos).any fun p => vMatch.getD p false with
    | false =>
      rw [if_pos Bool.false_ne_true, calcHash_ok hne hpos, ok_bind, if_neg Bool.false_ne_true,
        if_neg Bool.false_ne_true]
      rfl
    | true =>
      rw [if_neg (not_not.mpr rfl), if_pos rfl, if_pos rfl, ih (left_lt_width hpos), ok_bind,
        calcTreeWidth_eq]
      split
      · next hin =>
        rw [ih hin]
        simp only [List.append_assoc, List.cons_append, List.nil_append]
      · simp only [List.append_nil, List.append_assoc, List.singleton_append]
        rfl

theorem computeMerkleRootLoop_eq {root : UInt256} {mutation : Bool} {fuel : Nat}
    (hfuel : height ≤ fuel) (hbelow : ∀ h < height, 1 < width vTxid.length h)
    (hroot : (level (merklePair hash))^[height] vTxid = [root]) :
    (computeMerkleRootLoop hash fuel vTxid mutation).1 = root := by
  induction height generalizing vTxid fuel mutation with
  | zero =>
    rw [Function.iterate_zero, id] at hroot
    rw [hroot]
    cases fuel <;> rfl
  | succ height ih =>
    have hlen := hbelow 0 (Nat.succ_pos height)
    rw [width_zero] at hlen
    cases fuel with
    | zero => cases hfuel
    | succ fuel =>
      match vTxid, hlen, hroot, hbelow with
      | a :: b :: rest, _, hroot, hbelow =>
        change (computeMerkleRootLoop hash fuel (merkleLevel hash (a :: b :: rest)) _).1 = root
        rw [merkleLevel_eq]
        refine ih (Nat.le_of_succ_le_succ hfuel) ?_ hroot
        intro h hlt
        have hnext := hbelow (h + 1) (Nat.succ_lt_succ hlt)
        rwa [← length_iterate_level (merklePair hash), Function.iterate_succ_apply,
          length_iterate_level] at hnext

theorem computeMerkleRoot_eq (hne : vTxid ≠ []) :
    (computeMerkleRoot hash vTxid).1 = nodeHash hash vTxid (treeHeight vTxid.length) 0 := by
  obtain ⟨htop, hbelow⟩ := treeHeight_spec vTxid.length
  have hpos : 0 < width vTxid.length (treeHeight vTxid.length) := by
    rw [lt_width_iff, Nat.zero_mul]
    exact List.length_pos_of_ne_nil hne
  have hnode := nodeAt_eq hash hpos
  have hlen := length_iterate_level (merklePair hash) vTxid (treeHeight vTxid.length)
  rw [le_antisymm htop hpos] at hlen
  obtain ⟨root, hroot⟩ := List.length_eq_one_iff.mp hlen
  rw [nodeAt, hroot] at hnode
  cases hnode
  refine computeMerkleRootLoop_eq ?_ hbelow hroot
  by_contra hlong
  have hwide := hbelow vTxid.length (not_le.mp hlong)
  exact absurd (width_le_one_iff.mpr Nat.lt_two_pow_self.le) (not_le.mpr hwide)

end Nodes

namespace CPartialMerkleTree

section Complete

variable {hash : Bytes → UInt256} {vTxid : List UInt256} {t : CPartialMerkleTree}
  {wanted : Nat → Bool} {height pos : Nat}

/-- The state after the walk below a node that was written by the builder. -/
def advanced (hash : Bytes → UInt256) (vTxid : List UInt256) (wanted : Nat → Bool)
    (height pos : Nat) (s : ExtractState) : ExtractState where
  nBitsUsed := s.nBitsUsed + (proofBits vTxid.length wanted height pos).length
  nHashUsed := s.nHashUsed +
    (proofHashes vTxid.length wanted (nodeHash hash vTxid) height pos).length
  vMatch := s.vMatch ++
    ((below vTxid.length height pos).filter wanted).map fun p => vTxid.getD p 0
  vnIndex := s.vnIndex ++ (below vTxid.length height pos).filter wanted
  fBad := s.fBad

theorem advanced_of_none {s : ExtractState}
    (hany : (below vTxid.length (height + 1) pos).any wanted = false) :
    advanced hash vTxid wanted (height + 1) pos s =
      { s with nBitsUsed := s.nBitsUsed + 1, nHashUsed := s.nHashUsed + 1 } := by
  have hnone : (below vTxid.length (height + 1) pos).filter wanted = [] := by
    apply List.filter_eq_nil_iff.mpr
    simpa using hany
  simp [advanced, proofBits, proofHashes, hany, hnone]

theorem advanced_of_some {s : ExtractState}
    (hany : (below vTxid.length (height + 1) pos).any wanted = true) :
    advanced hash vTxid wanted (height + 1) pos s =
      if 2 * pos + 1 < width vTxid.length height then
        advanced hash vTxid wanted height (2 * pos + 1)
          (advanced hash vTxid wanted height (2 * pos) { s with nBitsUsed := s.nBitsUsed + 1 })
      else
        advanced hash vTxid wanted height (2 * pos) { s with nBitsUsed := s.nBitsUsed + 1 } := by
  rw [advanced, proofBits, proofHashes, hany, if_pos rfl, if_pos rfl,
    below_succ]
  split
  · simp only [advanced, List.filter_append, List.map_append, List.length_append, List.length_cons,
      List.append_assoc, ExtractState.mk.injEq, and_self, and_true]
    omega
  · next hout =>
    rw [below_eq_nil_iff.mpr (not_lt.mp hout)]
    simp only [advanced, List.append_nil, List.length_cons, ExtractState.mk.injEq, and_self,
      and_true]
    omega

/-- The streams continue with what the builder wrote for the node. -/
structure Follows (t : CPartialMerkleTree) (hash : Bytes → UInt256) (vTxid : List UInt256)
    (wanted : Nat → Bool) (height pos : Nat) (s : ExtractState) : Prop where
  bits : proofBits vTxid.length wanted height pos <+: t.vBits.drop s.nBitsUsed
  hashes : proofHashes vTxid.length wanted (nodeHash hash vTxid) height pos <+:
    t.vHash.drop s.nHashUsed

theorem getElem?_of_stream {α : Type*} {l rest : List α} {n : Nat} {a : α}
    (h : a :: rest <+: l.drop n) : l[n]? = some a ∧ rest <+: l.drop (n + 1) := by
  obtain ⟨tail, htail⟩ := h
  constructor
  · rw [← List.head?_drop, ← htail]
    rfl
  · rw [← List.tail_drop, ← htail]
    exact List.prefix_append rest tail

theorem stream_append {α : Type*} {l first second : List α} {n : Nat}
    (h : first ++ second <+: l.drop n) :
    first <+: l.drop n ∧ second <+: l.drop (n + first.length) := by
  obtain ⟨tail, htail⟩ := h
  rw [List.append_assoc] at htail
  constructor
  · exact ⟨_, htail⟩
  · rw [← List.drop_drop, ← htail, List.drop_left]
    exact List.prefix_append second tail

/-- Reading what the builder wrote for a node gives its hash and the matched transactions below
it. -/
theorem traverseAndExtract_built
    (hinj : Set.InjOn (fun p : UInt256 × UInt256 => merklePair hash p.1 p.2)
      {p | Hashed (merklePair hash) vTxid p})
    (hnodup : vTxid.Nodup) (ht : t.nTransactions = vTxid.length)
    (hpos : pos < width vTxid.length height) {s : ExtractState}
    (hfollows : t.Follows hash vTxid wanted height pos s) :
    t.traverseAndExtract hash height pos s =
      (nodeHash hash vTxid height pos, advanced hash vTxid wanted height pos s) := by
  induction height generalizing pos s with
  | zero =>
    have hlt : pos < vTxid.length := by rwa [width_zero] at hpos
    obtain ⟨hbit, -⟩ := getElem?_of_stream hfollows.bits
    obtain ⟨hhash, -⟩ := getElem?_of_stream hfollows.hashes
    have hleaf : nodeHash hash vTxid 0 pos = vTxid.getD pos 0 := by
      rw [nodeHash, nodeAt_zero, List.getD_eq_getElem?_getD]
    rw [traverseAndExtract, hbit]
    dsimp only
    rw [useHash, hhash]
    dsimp only
    cases hwanted : wanted pos with
    | false => simp [advanced, below_zero hlt, hwanted, proofBits, proofHashes]
    | true =>
      simp [advanced, below_zero hlt, hwanted, proofBits, proofHashes, hleaf]
  | succ height ih =>
    obtain ⟨hbits, hhashes⟩ := hfollows
    rw [proofBits] at hbits
    rw [proofHashes] at hhashes
    cases hany : (below vTxid.length (height + 1) pos).any wanted with
    | false =>
      rw [hany, if_neg Bool.false_ne_true] at hbits hhashes
      obtain ⟨hbit, -⟩ := getElem?_of_stream hbits
      obtain ⟨hhash, -⟩ := getElem?_of_stream hhashes
      rw [traverseAndExtract, hbit, advanced_of_none hany]
      change t.useHash _ _ false _ = _
      rw [useHash, hhash]
      exact if_neg fun h => Bool.false_ne_true h.2
    | true =>
      rw [hany, if_pos rfl] at hbits hhashes
      obtain ⟨hbit, hbits⟩ := getElem?_of_stream hbits
      have hleft := left_lt_width hpos
      have hl := ih hleft (s := { s with nBitsUsed := s.nBitsUsed + 1 })
        ⟨(stream_append hbits).1, (stream_append hhashes).1⟩
      rw [traverseAndExtract, hbit, advanced_of_some hany, nodeHash_succ hpos]
      dsimp only
      rw [hl, ht, calcTreeWidth_eq]
      split
      · next hin =>
        rw [if_pos hin] at hbits hhashes
        have hr := ih hin (s := advanced hash vTxid wanted height (2 * pos)
          { s with nBitsUsed := s.nBitsUsed + 1 })
          ⟨(stream_append hbits).2, (stream_append hhashes).2⟩
        -- two nodes beside each other are different
        have hne : nodeHash hash vTxid height (2 * pos + 1) ≠
            nodeHash hash vTxid height (2 * pos) := by
          intro heq
          have hsame := nodeAt_injective hinj hnodup (nodeAt_eq hash hleft)
            ((nodeAt_eq hash hin).trans (congrArg some heq))
          omega
        rw [hr, if_neg hne]
      · rfl

end Complete

section Sound

variable {hash : Bytes → UInt256} {vTxid : List UInt256} {t : CPartialMerkleTree}
  {height pos : Nat} {s : ExtractState}

/-- Every reported transaction is the one the list has at the reported index. -/
def Reported (vTxid : List UInt256) (s : ExtractState) : Prop :=
  List.Forall₂ (fun txid index => vTxid[index]? = some txid) s.vMatch s.vnIndex

theorem useHash_sound {fParentOfMatch : Bool} (hpos : pos < width vTxid.length height)
    (hnode : (t.useHash height pos fParentOfMatch s).1 = nodeHash hash vTxid height pos)
    (hs : Reported vTxid s) : Reported vTxid (t.useHash height pos fParentOfMatch s).2 := by
  unfold useHash at hnode ⊢
  cases hhash : t.vHash[s.nHashUsed]? with
  | none => exact hs
  | some h =>
    rw [hhash] at hnode
    dsimp only at hnode ⊢
    by_cases hleaf : height = 0 ∧ fParentOfMatch
    · rw [if_pos hleaf] at hnode ⊢
      obtain ⟨rfl, -⟩ := hleaf
      cases hnode
      exact List.rel_append hs (.cons (nodeAt_eq hash hpos) .nil)
    · rw [if_neg hleaf]
      exact hs

/-- If the walk below a node ends with the hash that the node has, what it reports is right. -/
theorem traverseAndExtract_sound {pairs : List (UInt256 × UInt256)}
    (hinj : Set.InjOn (fun p : UInt256 × UInt256 => merklePair hash p.1 p.2)
      {p | Hashed (merklePair hash) vTxid p ∨ p ∈ pairs})
    (ht : t.nTransactions = vTxid.length) (hroom : ∀ h < height, 1 < width vTxid.length h)
    (hpos : pos < width vTxid.length height)
    (hpairs : ∀ p ∈ t.hashedPairs hash height pos s, p ∈ pairs)
    (hnode : (t.traverseAndExtract hash height pos s).1 = nodeHash hash vTxid height pos)
    (hs : Reported vTxid s) : Reported vTxid (t.traverseAndExtract hash height pos s).2 := by
  induction height generalizing pos s with
  | zero =>
    rw [traverseAndExtract] at hnode ⊢
    split at hnode
    · exact hs
    · exact useHash_sound hpos hnode hs
  | succ height ih =>
    have hroom' : ∀ h < height, 1 < width vTxid.length h :=
      fun h hlt => hroom h (Nat.lt_succ_of_lt hlt)
    have hleft := left_lt_width hpos
    have hhashed := hashed_nodeAt (hroom height (Nat.lt_succ_self height))
      (nodeAt_eq hash hleft)
    rw [traverseAndExtract] at hnode ⊢
    rw [hashedPairs] at hpairs
    split at hnode
    · exact hs
    · exact useHash_sound hpos hnode hs
    · next hbit =>
      rw [hbit] at hpairs
      dsimp only at hpairs hnode ⊢
      rw [nodeHash_succ hpos] at hnode
      rw [ht, calcTreeWidth_eq] at hpairs hnode ⊢
      split at hnode
      · next hin =>
        rw [if_pos hin] at hpairs ⊢
        rw [nodeAt_eq hash hin] at hhashed
        obtain ⟨hpair, hpairs⟩ := List.forall_mem_cons.mp hpairs
        obtain ⟨hpairsL, hpairsR⟩ := List.forall_mem_append.mp hpairs
        have heq := hinj (.inr hpair) (.inl hhashed) hnode
        have hl := ih hroom' hleft hpairsL (congrArg Prod.fst heq) hs
        have hr := ih hroom' hin hpairsR (congrArg Prod.snd heq) hl
        split
        · exact hr
        · exact hr
      · next hout =>
        rw [if_neg hout] at hpairs ⊢
        rw [nodeAt_eq_none.mpr (not_lt.mp hout)] at hhashed
        obtain ⟨hpair, hpairs⟩ := List.forall_mem_cons.mp hpairs
        have heq := hinj (.inr hpair) (.inl hhashed) hnode
        exact ih hroom' hleft hpairs (congrArg Prod.fst heq) hs

end Sound

section Matches

variable {hash : Bytes → UInt256} {vTxid : List UInt256} {t : CPartialMerkleTree}

theorem zero_lt_width (hne : vTxid ≠ []) (height : Nat) : 0 < width vTxid.length height := by
  rw [lt_width_iff, Nat.zero_mul]
  exact List.length_pos_of_ne_nil hne

theorem extractMatches_eq (hpositive : t.nTransactions ≠ 0)
    (hcount : t.nTransactions ≤ maxBlockWeight / minTransactionWeight)
    (hhashes : t.vHash.length ≤ t.nTransactions) (hbits : t.vHash.length ≤ t.vBits.length)
    (vnIndex : List Nat) {root : UInt256} {s : ExtractState}
    (htraverse : t.traverseAndExtract hash (treeHeight t.nTransactions) 0
      ⟨0, 0, [], vnIndex, t.fBad⟩ = (root, s))
    (hgood : s.fBad = false) (hbitsUsed : s.nBitsUsed = t.vBits.length)
    (hhashUsed : s.nHashUsed = t.vHash.length) : t.extractMatches hash vnIndex = (root, s) := by
  rw [extractMatches, if_neg hpositive, if_neg (not_lt.mpr hcount), if_neg (not_lt.mpr hhashes),
    if_neg (not_lt.mpr hbits), htraverse]
  dsimp only
  rw [hgood, if_neg Bool.false_ne_true, hbitsUsed, if_neg (not_not.mpr rfl),
    if_neg (not_not.mpr hhashUsed)]

theorem extractMatches_built
    (hinj : Set.InjOn (fun p : UInt256 × UInt256 => merklePair hash p.1 p.2)
      {p | Hashed (merklePair hash) vTxid p}) (hne : vTxid ≠ []) (hnodup : vTxid.Nodup)
    (hcount : vTxid.length ≤ maxBlockWeight / minTransactionWeight) (vMatch : List Bool) :
    ∃ t, ofTxids hash vTxid vMatch = .ok t ∧
      t.extractMatches hash [] = ((computeMerkleRoot hash vTxid).1,
        advanced hash vTxid (fun p => vMatch.getD p false) (treeHeight vTxid.length) 0
          ⟨0, 0, [], [], false⟩) := by
  have hpos := zero_lt_width hne (treeHeight vTxid.length)
  have hbelow := below_root
    (width_le_one_iff.mp (treeHeight_spec vTxid.length).1)
  rw [ofTxids, traverseAndBuild_ok hne vMatch hpos]
  refine ⟨_, rfl, extractMatches_eq ?_ hcount ?_ ?_ [] ?_ rfl ?_ ?_⟩
  · exact mt List.eq_nil_of_length_eq_zero hne
  · have hle := length_proofHashes_le_below (fun p => vMatch.getD p false)
      (nodeHash hash vTxid) hpos
    rwa [hbelow, List.length_range] at hle
  · exact length_proofHashes_le_bits _ _ _ _ _
  · rw [computeMerkleRoot_eq hne]
    refine traverseAndExtract_built hinj hnodup rfl hpos ⟨?_, ?_⟩
    · exact List.prefix_rfl
    · exact List.prefix_rfl
  · exact Nat.zero_add _
  · exact Nat.zero_add _

theorem extractMatches_ne_zero {vnIndex : List Nat} (h : (t.extractMatches hash vnIndex).1 ≠ 0) :
    t.extractMatches hash vnIndex = t.traverseAndExtract hash (treeHeight t.nTransactions) 0
      ⟨0, 0, [], vnIndex, t.fBad⟩ := by
  unfold extractMatches at h ⊢
  dsimp only at h ⊢
  split_ifs at h ⊢ <;> first | rfl | exact absurd rfl h

end Matches

end CPartialMerkleTree

/-- Partial Merkle trees prove what they report. A tree built over distinct transactions gives back
the root of the list, the matched transactions and their indices in order. Any tree over as many
transactions that leads to the root of the list, if that is not the null hash that stands for
failure, reports only transactions of the list, each with its index. -/
theorem partialMerkleTree_proves (hash : Bytes → UInt256) {vTxid : List UInt256}
    (hne : vTxid ≠ []) (hcount : vTxid.length ≤ maxBlockWeight / minTransactionWeight)
    (hnodup : vTxid.Nodup) :
    (Set.InjOn (fun p : UInt256 × UInt256 => merklePair hash p.1 p.2)
        {p | Hashed (merklePair hash) vTxid p} →
      ∀ vMatch : List Bool, ∃ t s, CPartialMerkleTree.ofTxids hash vTxid vMatch = .ok t ∧
        t.extractMatches hash [] = ((computeMerkleRoot hash vTxid).1, s) ∧
        s.vnIndex = (List.range vTxid.length).filter (fun p => vMatch.getD p false) ∧
        s.vMatch = s.vnIndex.map (fun p => vTxid.getD p 0)) ∧
    ∀ t : CPartialMerkleTree, t.nTransactions = vTxid.length →
      Set.InjOn (fun p : UInt256 × UInt256 => merklePair hash p.1 p.2)
        {p | Hashed (merklePair hash) vTxid p ∨
          p ∈ t.hashedPairs hash (treeHeight t.nTransactions) 0 ⟨0, 0, [], [], t.fBad⟩} →
      (t.extractMatches hash []).1 = (computeMerkleRoot hash vTxid).1 →
      (computeMerkleRoot hash vTxid).1 ≠ 0 →
      List.Forall₂ (fun txid index => vTxid[index]? = some txid)
        (t.extractMatches hash []).2.vMatch (t.extractMatches hash []).2.vnIndex := by
  constructor
  · intro hinj vMatch
    obtain ⟨t, hbuilt, hextract⟩ :=
      CPartialMerkleTree.extractMatches_built hinj hne hnodup hcount vMatch
    have hbelow := below_root
      (width_le_one_iff.mp (treeHeight_spec vTxid.length).1)
    refine ⟨t, _, hbuilt, hextract, ?_, rfl⟩
    rw [← hbelow]
    rfl
  · intro t ht hinj hroot hnull
    have hwalk := CPartialMerkleTree.extractMatches_ne_zero (hroot ▸ hnull)
    rw [hwalk] at hroot ⊢
    rw [computeMerkleRoot_eq hne, ← ht] at hroot
    refine CPartialMerkleTree.traverseAndExtract_sound hinj ht ?_ ?_ (fun p hp => hp) hroot .nil
    · rw [ht]
      exact (treeHeight_spec vTxid.length).2
    · exact CPartialMerkleTree.zero_lt_width hne _

/-- The null hash as the only transaction is the root that stands for failure: a tree whose bits are
not all used fails, but has reported a transaction. -/
theorem nullTxid_misreported :
    ∃ t : CPartialMerkleTree, t.nTransactions = 1 ∧
      Set.InjOn (fun p : UInt256 × UInt256 => merklePair sampleCrypto.hash p.1 p.2)
        {p | Hashed (merklePair sampleCrypto.hash) [0] p ∨
          p ∈ t.hashedPairs sampleCrypto.hash (treeHeight 1) 0 ⟨0, 0, [], [], t.fBad⟩} ∧
      (t.extractMatches sampleCrypto.hash []).1 = (computeMerkleRoot sampleCrypto.hash [0]).1 ∧
      (t.extractMatches sampleCrypto.hash []).2.vMatch = [7] ∧
      (t.extractMatches sampleCrypto.hash []).2.vnIndex = [0] := by
  refine ⟨⟨1, List.replicate 9 true, [7], false⟩, rfl, ?_, rfl, rfl, rfl⟩
  rintro p (hp | hp)
  · exact absurd hp.one_lt_length (Nat.not_lt.mpr le_rfl)
  · cases hp

def sampleTxids : List UInt256 := [1, 2, 3]

/-- The pairs hashed over the three transactions. -/
def samplePairs : List (UInt256 × UInt256) :=
  [(1, 2), (3, 3), (merklePair sampleCrypto.hash 1 2, merklePair sampleCrypto.hash 3 3)]

theorem hashed_sampleTxids {p : UInt256 × UInt256}
    (hp : Hashed (merklePair sampleCrypto.hash) sampleTxids p) : p ∈ samplePairs := by
  cases hp with
  | here _ hmem =>
    rcases List.mem_cons.mp hmem with rfl | hmem
    · exact .head _
    · rw [List.mem_singleton.mp hmem]
      exact .tail _ (.head _)
  | up _ hup =>
    cases hup with
    | here _ hmem =>
      rw [List.mem_singleton.mp hmem]
      exact .tail _ (.tail _ (.head _))
    | up _ hup => exact absurd hup.one_lt_length (Nat.not_lt.mpr le_rfl)

theorem injOn_samplePairs :
    Set.InjOn (fun p : UInt256 × UInt256 => merklePair sampleCrypto.hash p.1 p.2)
      {p | p ∈ samplePairs} := by
  have hall : samplePairs.all (fun p => samplePairs.all fun q =>
      decide (merklePair sampleCrypto.hash p.1 p.2 = merklePair sampleCrypto.hash q.1 q.2 →
        p = q)) =
        true := by
    decide +kernel
  intro p hp q hq
  have hq := List.all_eq_true.mp (List.all_eq_true.mp hall p hp) q hq
  exact of_decide_eq_true hq

/-- The proof of the third transaction. -/
def sampleProof : CPartialMerkleTree :=
  ⟨3, [true, false, true, true], [merklePair sampleCrypto.hash 1 2, 3], false⟩

theorem sampleTxids_proved :
    (∃ t s, CPartialMerkleTree.ofTxids sampleCrypto.hash sampleTxids [false, false, true] = .ok t ∧
      t.extractMatches sampleCrypto.hash [] =
        ((computeMerkleRoot sampleCrypto.hash sampleTxids).1, s) ∧
      s.vnIndex = [2] ∧ s.vMatch = [3]) ∧
    List.Forall₂ (fun txid index => sampleTxids[index]? = some txid)
      (sampleProof.extractMatches sampleCrypto.hash []).2.vMatch
      (sampleProof.extractMatches sampleCrypto.hash []).2.vnIndex := by
  obtain ⟨hbuilt, hany⟩ := partialMerkleTree_proves sampleCrypto.hash
    (show sampleTxids ≠ [] by decide) (by decide) (by decide)
  constructor
  · obtain ⟨t, s, ht, hs, hindex, hmatch⟩ :=
      hbuilt (injOn_samplePairs.mono fun p => hashed_sampleTxids) [false, false, true]
    have hfilter : s.vnIndex = [2] := hindex.trans (by decide)
    rw [hfilter] at hmatch
    exact ⟨t, s, ht, hs, hfilter, hmatch⟩
  · refine hany sampleProof rfl (injOn_samplePairs.mono ?_) (by decide +kernel) (by decide +kernel)
    have hpairs : (sampleProof.hashedPairs sampleCrypto.hash (treeHeight 3) 0
        ⟨0, 0, [], [], false⟩).all (fun p => decide (p ∈ samplePairs)) = true := by
      decide +kernel
    rintro p (hp | hp)
    · exact hashed_sampleTxids hp
    · exact of_decide_eq_true (List.all_eq_true.mp hpairs p hp)

end Verium
