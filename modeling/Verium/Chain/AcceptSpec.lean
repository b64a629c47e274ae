import Verium.Chain.Accept

/-!
What `AcceptBlockHeader` and `AcceptBlock` can do to the index of a running node. A header
leaves the index as it is, or marks the path to a failed block, or adds one entry; a block
marks one entry, or stores its data and links the blocks that waited for it.
-/

namespace Verium

open Lib Function

section Insert

variable {entry entry' : BlockPtr → CBlockIndex} {S : BlockPtr → Prop} {e : CBlockIndex}
  {pNew a p q : BlockPtr}

theorem BlockTree.congr (ht : BlockTree entry S)
    (hprev : ∀ p, S p → (entry' p).pprev = (entry p).pprev)
    (hskip : ∀ p, S p → (entry' p).pskip = (entry p).pskip)
    (hheight : ∀ p, S p → (entry' p).nHeight = (entry p).nHeight) : BlockTree entry' S := by
  refine ⟨⟨?_, ?_, ?_⟩, ?_⟩
  · intro p hp hroot
    rw [hprev p hp] at hroot
    rw [hheight p hp]
    exact ht.graded.root hp hroot
  · intro p r hp hparent
    rw [hprev p hp] at hparent
    exact ht.graded.mem hp hparent
  · intro p r hp hparent
    rw [hprev p hp] at hparent
    rw [hheight p hp, hheight r (ht.graded.mem hp hparent)]
    exact ht.graded.succ hp hparent
  · intro p r hp hr
    rw [hskip p hp] at hr
    obtain ⟨hanc, hat⟩ := ht.skip hp hr
    rw [hheight p hp, hheight r (ht.graded.ancestor_mem hp hanc)]
    exact ⟨(ht.graded.ancestor_congr hprev hp).mpr hanc, hat⟩

theorem IsChainTo.congr {vChain : CChain} {t : BlockPtr} (h : IsChainTo entry vChain t)
    (ht : BlockTree entry S) (htip : S t) (hprev : ∀ p, S p → (entry' p).pprev = (entry p).pprev)
    (hheight : ∀ p, S p → (entry' p).nHeight = (entry p).nHeight) : IsChainTo entry' vChain t where
  length := by
    rw [hheight t htip]
    exact h.length
  get k p := by
    have hanc : IsAncestor entry' p t ↔ IsAncestor entry p t :=
      ht.graded.ancestor_congr hprev htip
    rw [h.get, hanc]
    refine and_congr_right fun hp => ?_
    rw [hheight p (ht.graded.ancestor_mem htip hp)]

theorem update_of_mem (hnew : ¬ S pNew) (hp : S p) : update entry pNew e p = entry p := by
  apply update_of_ne
  rintro rfl
  exact hnew hp

theorem BlockTree.update (ht : BlockTree entry S) (hnew : ¬ S pNew) :
    BlockTree (Function.update entry pNew e) S := by
  apply ht.congr
  all_goals
    intro p hp
    rw [update_of_mem hnew hp]

theorem BlockTree.isAncestor_update (ht : BlockTree entry S) (hnew : ¬ S pNew) (hp : S p) :
    IsAncestor (Function.update entry pNew e) a p ↔ IsAncestor entry a p := by
  apply ht.graded.ancestor_congr _ hp
  intro y hy
  rw [update_of_mem hnew hy]

theorem BlockTree.insert (ht : BlockTree entry S) (hnew : ¬ S pNew)
    (hroot : e.pprev = none → e.nHeight = 0)
    (hparent : ∀ q, e.pprev = some q → S q ∧ e.nHeight = (entry q).nHeight + 1)
    (hskip : ∀ a, e.pskip = some a → ∃ q, e.pprev = some q ∧ IsAncestor entry a q ∧
      (entry a).nHeight = getSkipHeight e.nHeight) :
    BlockTree (Function.update entry pNew e) fun p => p = pNew ∨ S p := by
  have hold : BlockTree (Function.update entry pNew e) S := ht.update hnew
  refine ⟨⟨?_, ?_, ?_⟩, ?_⟩
  · rintro p (rfl | hp) hnone
    · rw [update_self] at hnone ⊢
      exact hroot hnone
    · exact hold.graded.root hp hnone
  · rintro p r (rfl | hp) hr
    · rw [update_self] at hr
      exact .inr (hparent r hr).1
    · exact .inr (hold.graded.mem hp hr)
  · rintro p r (rfl | hp) hr
    · rw [update_self] at hr ⊢
      rw [update_of_mem hnew (hparent r hr).1]
      exact (hparent r hr).2
    · exact hold.graded.succ hp hr
  · rintro p r (rfl | hp) hr
    · rw [update_self] at hr ⊢
      obtain ⟨q, hprev, hanc, hat⟩ := hskip r hr
      have hq := (hparent q hprev).1
      rw [update_of_mem hnew (ht.graded.ancestor_mem hq hanc)]
      refine ⟨.step ?_ ((ht.isAncestor_update hnew hq).mpr hanc), hat⟩
      rw [update_self]
      exact hprev
    · exact hold.skip hp hr

end Insert

/-- The entries form trees, and each is filed under its hash and listed. -/
structure IndexTree (s : NodeState) : Prop where
  tree : BlockTree s.entry s.blockman.Holds
  filed : ∀ {hash p}, s.blockman.blockIndex hash = some p → (s.entry p).hashBlock = hash
  listed : ∀ {p}, p ∈ s.blocks ↔ s.blockman.Holds p

/-- The index of a running node: its entries are on top of genesis. -/
structure Indexed (node : NodeParams) (s : NodeState) : Prop extends IndexTree s where
  genesis : ∃ p, s.blockman.blockIndex node.params.hashGenesisBlock = some p
  root : ∀ {p}, s.blockman.Holds p → (s.entry p).pprev = none →
    (s.entry p).hashBlock = node.params.hashGenesisBlock

theorem IndexTree.holds {s : NodeState} {hash : UInt256} {p : BlockPtr} (hs : IndexTree s)
    (h : s.blockman.blockIndex hash = some p) : s.blockman.Holds p := by
  rw [← hs.filed h] at h
  exact h

theorem IndexTree.not_holds {s : NodeState} {p : BlockPtr} (hs : IndexTree s)
    (hfresh : p ∉ s.blocks) : ¬ s.blockman.Holds p :=
  fun h => hfresh (hs.listed.mpr h)

/-- The entry of a header that is new in the index, on top of the entry `parent`. -/
structure LinkedTo (entry : BlockPtr → CBlockIndex) (hash : UInt256) (block : CBlockHeader)
    (parent : BlockPtr) (e : CBlockIndex) : Prop where
  hashBlock : e.hashBlock = hash
  nBits : e.nBits = block.nBits
  pprev : e.pprev = some parent
  nHeight : e.nHeight = (entry parent).nHeight + 1
  pskip : ∀ a, e.pskip = some a →
    IsAncestor entry a parent ∧ (entry a).nHeight = getSkipHeight e.nHeight
  nChainWork : e.nChainWork =
    ((entry parent).nChainWork + getBlockProof block.nBits) % 2 ^ 256
  nTx : e.nTx = 0
  nChainTx : e.nChainTx = 0
  nSequenceId : e.nSequenceId = 0
  nStatus : e.nStatus = ⟨blockValidTree, false, false, false, false⟩

/-- The state with a new entry, filed and listed. -/
def NodeState.withEntry (s : NodeState) (pNew : BlockPtr) (e : CBlockIndex)
    (pindexBestHeader : Option BlockPtr) : NodeState :=
  { s with
    blockman :=
      { s.blockman with
        entry := update s.entry pNew e
        blockIndex := update s.blockman.blockIndex e.hashBlock (some pNew) }
    blocks := pNew :: s.blocks
    pindexBestHeader }

/-- The states hold the same headers at the same places of the tree, up to what is recorded about
the blocks. -/
structure SameFrame (s s' : NodeState) : Prop where
  blockIndex : s'.blockman.blockIndex = s.blockman.blockIndex
  blocks : s'.blocks = s.blocks
  entry : ∀ p, s'.entry p =
    { s.entry p with
      nTx := (s'.entry p).nTx
      nChainTx := (s'.entry p).nChainTx
      nStatus := (s'.entry p).nStatus
      nMint := (s'.entry p).nMint
      nMoneySupply := (s'.entry p).nMoneySupply
      nSequenceId := (s'.entry p).nSequenceId }

namespace SameFrame

variable {s s' s'' : NodeState} (h : SameFrame s s')

include h

theorem pprev (p : BlockPtr) : (s'.entry p).pprev = (s.entry p).pprev := by
  rw [h.entry p]

theorem pskip (p : BlockPtr) : (s'.entry p).pskip = (s.entry p).pskip := by
  rw [h.entry p]

theorem nHeight (p : BlockPtr) : (s'.entry p).nHeight = (s.entry p).nHeight := by
  rw [h.entry p]

theorem hashBlock (p : BlockPtr) : (s'.entry p).hashBlock = (s.entry p).hashBlock := by
  rw [h.entry p]

theorem isAncestor_iff (a p : BlockPtr) : IsAncestor s'.entry a p ↔ IsAncestor s.entry a p := by
  simp only [IsAncestor, h.pprev]

theorem holds_eq : s'.blockman.Holds = s.blockman.Holds :=
  BlockManager.holds_congr h.blockIndex h.hashBlock

theorem holds_iff (p : BlockPtr) : s'.blockman.Holds p ↔ s.blockman.Holds p := by
  rw [h.holds_eq]

theorem tree {S : BlockPtr → Prop} (ht : BlockTree s.entry S) : BlockTree s'.entry S :=
  ht.congr (fun p _ => h.pprev p) (fun p _ => h.pskip p) (fun p _ => h.nHeight p)

end SameFrame

/-- The states hold the same headers at the same places of the tree. -/
structure SameHeaders (s s' : NodeState) : Prop where
  blockIndex : s'.blockman.blockIndex = s.blockman.blockIndex
  blocks : s'.blocks = s.blocks
  entry : ∀ p, s'.entry p =
    { s.entry p with
      nTx := (s'.entry p).nTx
      nChainTx := (s'.entry p).nChainTx
      nStatus := (s'.entry p).nStatus
      nSequenceId := (s'.entry p).nSequenceId }

namespace SameHeaders

variable {s s' s'' : NodeState}

theorem refl (s : NodeState) : SameHeaders s s :=
  ⟨rfl, rfl, fun _ => rfl⟩

theorem trans (h : SameHeaders s s') (h' : SameHeaders s' s'') : SameHeaders s s'' where
  blockIndex := h'.blockIndex.trans h.blockIndex
  blocks := h'.blocks.trans h.blocks
  entry p := by
    rw [h'.entry p, h.entry p]

variable (h : SameHeaders s s')

include h

theorem sameFrame : SameFrame s s' := by
  refine ⟨h.blockIndex, h.blocks, fun p => ?_⟩
  rw [h.entry p]

theorem pprev (p : BlockPtr) : (s'.entry p).pprev = (s.entry p).pprev :=
  h.sameFrame.pprev p

theorem nHeight (p : BlockPtr) : (s'.entry p).nHeight = (s.entry p).nHeight :=
  h.sameFrame.nHeight p

end SameHeaders

section Indexed

variable {node : NodeParams} {s s' : NodeState} {block : CBlockHeader} {hash : UInt256}
  {pNew parent p : BlockPtr} {e : CBlockIndex} {best : Option BlockPtr}

theorem IndexTree.congr (hs : IndexTree s)
    (hindex : s'.blockman.blockIndex = s.blockman.blockIndex) (hblocks : s'.blocks = s.blocks)
    (hhash : ∀ p, (s'.entry p).hashBlock = (s.entry p).hashBlock)
    (htree : BlockTree s'.entry s.blockman.Holds) : IndexTree s' where
  tree := by
    rw [BlockManager.holds_congr hindex hhash]
    exact htree
  filed hfile := by
    rw [hindex] at hfile
    rw [hhash]
    exact hs.filed hfile
  listed := by
    intro p
    rw [hblocks, BlockManager.holds_congr hindex hhash]
    exact hs.listed

theorem Indexed.congr (hs : Indexed node s)
    (hindex : s'.blockman.blockIndex = s.blockman.blockIndex) (hblocks : s'.blocks = s.blocks)
    (hhash : ∀ p, (s'.entry p).hashBlock = (s.entry p).hashBlock)
    (hprev : ∀ p, (s'.entry p).pprev = (s.entry p).pprev)
    (htree : BlockTree s'.entry s.blockman.Holds) : Indexed node s' := by
  refine ⟨hs.toIndexTree.congr hindex hblocks hhash htree, ?_, ?_⟩
  · rw [hindex]
    exact hs.genesis
  · intro p hp hroot
    rw [BlockManager.holds_congr hindex hhash] at hp
    rw [hprev] at hroot
    rw [hhash]
    exact hs.root hp hroot

theorem Indexed.of_sameFrame (hs : Indexed node s) (h : SameFrame s s') : Indexed node s' :=
  hs.congr h.blockIndex h.blocks h.hashBlock h.pprev (h.tree hs.tree)

theorem Indexed.of_sameHeaders (hs : Indexed node s) (h : SameHeaders s s') : Indexed node s' :=
  hs.of_sameFrame h.sameFrame

theorem withEntry_entry_self :
    (s.withEntry pNew e best).entry pNew = e :=
  update_self _ _ _

theorem withEntry_entry_of_mem (hfresh : pNew ∉ s.blocks) (hp : p ∈ s.blocks) :
    (s.withEntry pNew e best).entry p = s.entry p :=
  update_of_mem (S := (· ∈ s.blocks)) hfresh hp

theorem withEntry_blockIndex (hnew : s.blockman.blockIndex e.hashBlock = none)
    (h : s.blockman.blockIndex hash = some p) :
    (s.withEntry pNew e best).blockman.blockIndex hash = some p := by
  change update s.blockman.blockIndex e.hashBlock (some pNew) hash = some p
  rw [update_of_ne]
  · exact h
  · rintro rfl
    rw [hnew] at h
    cases h

theorem holds_withEntry (hnew : s.blockman.blockIndex e.hashBlock = none) :
    (s.withEntry pNew e best).blockman.Holds = fun p => p = pNew ∨ s.blockman.Holds p := by
  funext p
  apply propext
  unfold BlockManager.Holds
  change update s.blockman.blockIndex e.hashBlock (some pNew)
    (update s.entry pNew e p).hashBlock = some p ↔ _
  rcases eq_or_ne p pNew with rfl | hne
  · rw [update_self, update_self]
    exact ⟨fun _ => .inl rfl, fun _ => rfl⟩
  · rw [update_of_ne hne]
    by_cases hhash : (s.entry p).hashBlock = e.hashBlock
    · rw [hhash, update_self, Option.some_inj]
      constructor
      · exact fun h => absurd h.symm hne
      · rintro (h | h)
        · exact absurd h hne
        · change s.blockman.blockIndex (s.entry p).hashBlock = some p at h
          rw [hhash, hnew] at h
          cases h
    · rw [update_of_ne hhash]
      exact ⟨.inr, fun h => h.resolve_left hne⟩

theorem IndexTree.withEntry (hs : IndexTree s) (hfresh : pNew ∉ s.blocks)
    (hnew : s.blockman.blockIndex e.hashBlock = none)
    (htree : BlockTree (update s.entry pNew e) fun p => p = pNew ∨ s.blockman.Holds p) :
    IndexTree (s.withEntry pNew e best) := by
  refine ⟨?_, ?_, ?_⟩
  · rw [holds_withEntry hnew]
    exact htree
  · intro hash p h
    change update s.blockman.blockIndex e.hashBlock (some pNew) hash = some p at h
    change (update s.entry pNew e p).hashBlock = hash
    rcases eq_or_ne hash e.hashBlock with rfl | hhash
    · rw [update_self, Option.some_inj] at h
      rw [h, update_self]
    · rw [update_of_ne hhash] at h
      rw [update_of_mem (hs.not_holds hfresh) (hs.holds h)]
      exact hs.filed h
  · intro p
    rw [holds_withEntry hnew]
    change p ∈ pNew :: s.blocks ↔ _
    rw [List.mem_cons, hs.listed]

/-- A new entry on top of an old one keeps the index in order. -/
theorem Indexed.withEntry (hs : Indexed node s) (hfresh : pNew ∉ s.blocks)
    (hparent : s.blockman.Holds parent) (hnew : s.blockman.blockIndex hash = none)
    (hlink : LinkedTo s.entry hash block parent e) : Indexed node (s.withEntry pNew e best) := by
  have hnot := hs.not_holds hfresh
  have hnew' : s.blockman.blockIndex e.hashBlock = none := hlink.hashBlock ▸ hnew
  refine ⟨hs.toIndexTree.withEntry hfresh hnew' (hs.tree.insert hnot ?_ ?_ ?_), ?_, ?_⟩
  · intro hnone
    rw [hlink.pprev] at hnone
    cases hnone
  · intro q hq
    rw [hlink.pprev] at hq
    cases hq
    exact ⟨hparent, hlink.nHeight⟩
  · exact fun a ha => ⟨parent, hlink.pprev, hlink.pskip a ha⟩
  · obtain ⟨g, hg⟩ := hs.genesis
    exact ⟨g, withEntry_blockIndex hnew' hg⟩
  · intro p hp hroot
    rw [holds_withEntry hnew'] at hp
    change (update s.entry pNew e p).pprev = none at hroot
    change (update s.entry pNew e p).hashBlock = _
    rcases hp with rfl | hp
    · rw [update_self, hlink.pprev] at hroot
      cases hroot
    · rw [update_of_mem hnot hp] at hroot ⊢
      exact hs.root hp hroot

/-- The index with the genesis block only is in order. -/
theorem Indexed.of_genesis {g : BlockPtr} (hblocks : s.blocks = [g])
    (hindex : ∀ hash, s.blockman.blockIndex hash =
      if hash = node.params.hashGenesisBlock then some g else none)
    (hhash : (s.entry g).hashBlock = node.params.hashGenesisBlock)
    (hprev : (s.entry g).pprev = none) (hskip : (s.entry g).pskip = none)
    (hheight : (s.entry g).nHeight = 0) : Indexed node s := by
  have hholds : s.blockman.Holds = (· = g) := by
    funext p
    apply propext
    rw [BlockManager.Holds, hindex]
    constructor
    · intro hp
      split at hp
      · cases hp
        rfl
      · cases hp
    · rintro rfl
      exact if_pos hhash
  have htree : BlockTree s.entry (· = g) := by
    refine ⟨⟨?_, ?_, ?_⟩, ?_⟩
    · rintro p rfl _
      exact hheight
    all_goals
      rintro p q rfl hq
      simp only [hprev, hskip, reduceCtorEq] at hq
  refine ⟨⟨hholds ▸ htree, ?_, ?_⟩, ?_, ?_⟩
  · intro hash p hfile
    rw [hindex] at hfile
    split at hfile
    next heq =>
      cases hfile
      rw [hhash, heq]
    · cases hfile
  · intro p
    rw [hblocks, List.mem_singleton, hholds]
  · exact ⟨g, (hindex _).trans (if_pos rfl)⟩
  · rw [hholds]
    rintro p rfl _
    exact hhash

theorem Indexed.of_height_zero (hs : Indexed node s) (hp : s.blockman.Holds p)
    (hzero : (s.entry p).nHeight = 0) :
    s.blockman.blockIndex node.params.hashGenesisBlock = some p := by
  rw [← hs.root hp (hs.tree.graded.parent_eq_none hp hzero)]
  exact hp

theorem Indexed.isAncestor_of_height_zero {g : BlockPtr} (hs : Indexed node s)
    (hg : s.blockman.Holds g) (hheight : (s.entry g).nHeight = 0) (hp : s.blockman.Holds p) :
    IsAncestor s.entry g p := by
  obtain ⟨r, hr, hzero⟩ := hs.tree.graded.exists_ancestor hp (Nat.zero_le _)
  have hsame := (hs.of_height_zero (hs.tree.graded.ancestor_mem hp hr) hzero).symm.trans
    (hs.of_height_zero hg hheight)
  rw [Option.some_inj] at hsame
  exact hsame ▸ hr

end Indexed

section AcceptBlockHeader

variable {node : NodeParams} {s s' : NodeState} {block : CBlockHeader} {nAdjustedTime : Int}
  {pNew pindex pprev : BlockPtr} {failedit : Option BlockPtr}

theorem NodeState.raiseBestHeader_eq (s : NodeState) (p : BlockPtr) :
    ∃ best, s.raiseBestHeader p = { s with pindexBestHeader := best } := by
  unfold NodeState.raiseBestHeader
  split
  · exact ⟨some p, rfl⟩
  · split
    · exact ⟨some p, rfl⟩
    · exact ⟨s.pindexBestHeader, rfl⟩

/-- A header passes the checks on a known parent that carries no flag. -/
theorem checkNewHeader_ok
    (h : checkNewHeader node s block nAdjustedTime = .ok (pprev, failedit)) :
    s.blockman.blockIndex block.hashPrevBlock = some pprev ∧
      (s.entry pprev).nStatus.failed = false ∧
      checkHeaderOn node s block pprev nAdjustedTime = .ok () ∧
      ((s.entry pprev).nStatus.isValid blockValidScripts = true ∧ failedit = none ∨
        (s.entry pprev).nStatus.isValid blockValidScripts = false ∧
          findFailed s.entry pprev (s.blockman.failedBlocks.insertionSort (· ≤ ·)) =
            .ok failedit) := by
  unfold checkNewHeader at h
  split at h
  next p hprev =>
    simp only [bind_eq_ok, rejectIf_eq_ok, Bool.not_eq_true] at h
    obtain ⟨-, hflag, ⟨⟩, hcheck, h⟩ := h
    split at h
    next hvalid =>
      cases h
      exact ⟨hprev, hflag, hcheck, .inl ⟨hvalid, rfl⟩⟩
    next hvalid =>
      rw [bind_eq_ok] at h
      obtain ⟨found, hfound, h⟩ := h
      cases h
      rw [Bool.not_eq_true] at hvalid
      exact ⟨hprev, hflag, hcheck, .inr ⟨hvalid, hfound⟩⟩
  · cases h

/-- `GetAncestor` at the height of an entry finds it exactly if it is an ancestor. -/
theorem BlockTree.getAncestor_iff {entry : BlockPtr → CBlockIndex} {S : BlockPtr → Prop}
    (ht : BlockTree entry S) {f p : BlockPtr} (hp : S p) :
    ∃ r, getAncestor entry p (entry f).nHeight = .ok r ∧ (r = some f ↔ IsAncestor entry f p) := by
  by_cases hle : (entry f).nHeight ≤ (entry p).nHeight
  · obtain ⟨a, hok, ha, hheight⟩ := getAncestor_ok ht hp hle
    refine ⟨some a, hok, ?_⟩
    rw [Option.some_inj]
    constructor
    · rintro rfl
      exact ha
    · intro hf
      exact ht.graded.ancestor_unique hp ha hf hheight
  · refine ⟨none, ?_, ?_⟩
    · rw [getAncestor, if_pos (.inl (by omega))]
    · constructor
      · intro h
        cases h
      · intro hf
        exact absurd (ht.graded.height_le hp hf) hle

/-- The search for a failed ancestor looks through the whole list. -/
theorem findFailed_ok {entry : BlockPtr → CBlockIndex} {S : BlockPtr → Prop}
    (ht : BlockTree entry S) {p : BlockPtr} (hp : S p) {l : List BlockPtr}
    (h : findFailed entry p l = .ok failedit) :
    match failedit with
    | none => ∀ f ∈ l, ¬ IsAncestor entry f p
    | some f => f ∈ l ∧ IsAncestor entry f p ∧ (entry f).nStatus.failedValid = true := by
  induction l with
  | nil =>
    cases h
    simp
  | cons g rest ih =>
    obtain ⟨r, hr, hiff⟩ := ht.getAncestor_iff (f := g) hp
    rw [findFailed, hr, ok_bind] at h
    split at h
    next hfound =>
      rw [bind_eq_ok] at h
      obtain ⟨⟨⟩, hflag, h⟩ := h
      cases h
      exact ⟨List.mem_cons_self, hiff.mp hfound, assertThat_eq_ok.mp hflag⟩
    next hother =>
      have hrest := ih h
      cases failedit with
      | none =>
        rintro f (_ | ⟨_, hf⟩)
        · exact fun hanc => hother (hiff.mpr hanc)
        · exact hrest f hf
      | some f => exact ⟨List.mem_cons_of_mem g hrest.1, hrest.2⟩

/-- The entry lies on the path from `top` down to `failedit`, which is left out. -/
def OnPath (entry : BlockPtr → CBlockIndex) (failedit top p : BlockPtr) : Prop :=
  p ≠ failedit ∧ IsAncestor entry failedit p ∧ IsAncestor entry p top

/-- The entry with `BLOCK_FAILED_CHILD` set. -/
def CBlockIndex.markChild (e : CBlockIndex) : CBlockIndex :=
  { e with nStatus := { e.nStatus with failedChild := true } }

/-- Exactly the entries of the path to the failed block are marked. -/
theorem markFailedChildren_spec {s : CChainState} {S : BlockPtr → Prop}
    (ht : BlockTree s.entry S) {failedit p : BlockPtr} (hp : S p)
    (hf : IsAncestor s.entry failedit p) {fuel : Nat} (hfuel : (s.entry p).nHeight < fuel) :
    ∃ entry', s.markFailedChildren failedit fuel (some p) =
        { s with blockman := { s.blockman with entry := entry' } } ∧
      ∀ q, (OnPath s.entry failedit p q → entry' q = (s.entry q).markChild) ∧
        (¬ OnPath s.entry failedit p q → entry' q = s.entry q) := by
  induction fuel generalizing s p with
  | zero => omega
  | succ fuel ih =>
    rw [CChainState.markFailedChildren]
    split
    next heq =>
      subst heq
      refine ⟨s.entry, rfl, fun q => ⟨?_, fun _ => rfl⟩⟩
      rintro ⟨hne, hpq, hqp⟩
      have hle := ht.graded.height_le (ht.graded.ancestor_mem hp hqp) hpq
      have hge := ht.graded.height_le hp hqp
      exact absurd (ht.graded.eq_of_height hp hqp (by omega)) hne
    next hne =>
      obtain ⟨parent, hprev, hanc⟩ := hf.parent_of_ne (Ne.symm hne)
      -- the walk goes on in a state that has the same links
      let s₁ := s.updateStatus p fun status => { status with failedChild := true }
      have hentry : s₁.entry = update s.entry p (s.entry p).markChild := rfl
      have hsame : ∀ q, (s₁.entry q).pprev = (s.entry q).pprev ∧
          (s₁.entry q).pskip = (s.entry q).pskip ∧ (s₁.entry q).nHeight = (s.entry q).nHeight := by
        intro q
        rw [hentry]
        by_cases hq : q = p
        · subst hq
          rw [update_self]
          exact ⟨rfl, rfl, rfl⟩
        · rw [update_of_ne hq]
          exact ⟨rfl, rfl, rfl⟩
      have hanc_iff : ∀ a b, IsAncestor s₁.entry a b ↔ IsAncestor s.entry a b := by
        intro a b
        simp only [IsAncestor, fun q => (hsame q).1]
      have ht₁ : BlockTree s₁.entry S :=
        ht.congr (fun q _ => (hsame q).1) (fun q _ => (hsame q).2.1) (fun q _ => (hsame q).2.2)
      have hparent := ht.graded.mem hp hprev
      have hsucc := ht.graded.succ hp hprev
      have hheight := (hsame parent).2.2
      obtain ⟨entry', heq, hpath⟩ := ih ht₁ hparent ((hanc_iff _ _).mpr hanc) (by omega)
      rw [hprev]
      refine ⟨entry', heq, fun q => ?_⟩
      have hpath_q := hpath q
      simp only [OnPath, hanc_iff] at hpath_q ⊢
      rcases eq_or_ne q p with rfl | hq
      · have habove : ¬ IsAncestor s.entry q parent := by
          intro h
          have := ht.graded.height_le hparent h
          omega
        refine ⟨fun _ => ?_, fun hnot => absurd ⟨hne, hf, .refl q⟩ hnot⟩
        rw [hpath_q.2 fun h => habove h.2.2, hentry, update_self]
      · have hbelow : IsAncestor s.entry q p ↔ IsAncestor s.entry q parent :=
          (Ancestor.iff_of_parent hprev).trans (or_iff_right hq)
        rw [hbelow]
        rw [hentry, update_of_ne hq] at hpath_q
        exact hpath_q

/-- The entry of a header on top of the entry `parent`, with its skip pointer. -/
def CBlockIndex.onTop (entry : BlockPtr → CBlockIndex) (hash : UInt256) (block : CBlockHeader)
    (parent pskip : BlockPtr) : CBlockIndex :=
  { CBlockIndex.ofHeader hash block with
    pprev := some parent
    nHeight := (entry parent).nHeight + 1
    pskip := some pskip
    nTimeMax := max (entry parent).nTimeMax block.nTime
    nChainWork := ((entry parent).nChainWork + getBlockProof block.nBits) % 2 ^ 256
    nStatus := ⟨blockValidTree, false, false, false, false⟩ }

section OnTop

variable (ht : BlockTree s.entry s.blockman.Holds) (hnot : ¬ s.blockman.Holds pNew)
  (hheld : s.blockman.Holds pprev)
  (hnew : s.blockman.blockIndex (block.getHash node.crypto) = none)
  (hprev : s.blockman.blockIndex block.hashPrevBlock = some pprev)

include ht hnot hheld hnew hprev

/-- `AddToBlockIndex` on a header that is new in the index and has its parent there. -/
theorem addToBlockIndex_onTop : ∃ a best, IsAncestor s.entry a pprev ∧
      (s.entry a).nHeight = getSkipHeight ((s.entry pprev).nHeight + 1) ∧
      addToBlockIndex node block pNew s = (.ok pNew, s.withEntry pNew
        (.onTop s.entry (block.getHash node.crypto) block pprev a) best) := by
  have hhash : block.hashPrevBlock ≠ block.getHash node.crypto := by
    intro heq
    rw [heq, hnew] at hprev
    cases hprev
  let bare := CBlockIndex.ofHeader (block.getHash node.crypto) block
  -- the skip pointer is looked up while the memory holds the new entry without its links
  have hbare : BlockTree (update s.entry pNew bare) s.blockman.Holds :=
    ht.update hnot
  have hparent : update s.entry pNew bare pprev = s.entry pprev :=
    update_of_mem hnot hheld
  have hle : getSkipHeight ((s.entry pprev).nHeight + 1) ≤
      (update s.entry pNew bare pprev).nHeight := by
    rw [hparent]
    exact Nat.lt_succ_iff.mp (getSkipHeight_lt (Nat.succ_pos _))
  obtain ⟨a, hskip, hanc, hat⟩ := getAncestor_ok hbare hheld hle
  rw [ht.isAncestor_update hnot hheld] at hanc
  rw [update_of_mem hnot (ht.graded.ancestor_mem hheld hanc)] at hat
  have hindex : update s.blockman.blockIndex (block.getHash node.crypto) (some pNew)
      block.hashPrevBlock = some pprev := by
    rw [update_of_ne hhash]
    exact hprev
  unfold addToBlockIndex linkEntry
  dsimp only
  rw [hnew]
  dsimp only
  rw [hindex]
  dsimp only
  rw [hparent, hskip]
  dsimp only [ok_bind, pure, Except.pure]
  obtain ⟨best, hbest⟩ := NodeState.raiseBestHeader_eq _ pNew
  rw [hbest]
  exact ⟨a, best, hanc, hat, rfl⟩

theorem addToBlockIndex_eq : ∃ e best, LinkedTo s.entry (block.getHash node.crypto) block pprev e ∧
    addToBlockIndex node block pNew s = (.ok pNew, s.withEntry pNew e best) := by
  obtain ⟨a, best, hanc, hat, heq⟩ := addToBlockIndex_onTop ht hnot hheld hnew hprev
  refine ⟨_, best, ⟨rfl, rfl, rfl, rfl, fun _ h => ?_, rfl, rfl, rfl, rfl, rfl⟩, heq⟩
  cases h
  exact ⟨hanc, hat⟩

end OnTop

/-- `AddToBlockIndex` on a header that is new in the index and has no parent there. -/
theorem addToBlockIndex_root (pNew : BlockPtr)
    (hhash : block.hashPrevBlock ≠ block.getHash node.crypto)
    (hnew : s.blockman.blockIndex (block.getHash node.crypto) = none)
    (hprev : s.blockman.blockIndex block.hashPrevBlock = none) :
    ∃ e best, e.hashBlock = block.getHash node.crypto ∧ e.pprev = none ∧ e.pskip = none ∧
      e.nHeight = 0 ∧ e.nTimeMax = e.nTime ∧ e.nBits = block.nBits ∧
      e.nChainWork = getBlockProof e.nBits ∧
      addToBlockIndex node block pNew s = (.ok pNew, s.withEntry pNew e best) := by
  have hindex : update s.blockman.blockIndex (block.getHash node.crypto) (some pNew)
      block.hashPrevBlock = none := by
    rw [update_of_ne hhash]
    exact hprev
  unfold addToBlockIndex linkEntry
  dsimp only
  rw [hnew]
  dsimp only
  rw [hindex]
  dsimp only [pure, Except.pure]
  obtain ⟨best, hbest⟩ := NodeState.raiseBestHeader_eq _ pNew
  rw [hbest]
  exact ⟨_, best, rfl, rfl, rfl, rfl, rfl, rfl, rfl, rfl⟩

theorem SameHeaders.of_marked {entry' : BlockPtr → CBlockIndex} {failedit top : BlockPtr}
    (hpath : ∀ q, (OnPath s.entry failedit top q → entry' q = (s.entry q).markChild) ∧
      (¬ OnPath s.entry failedit top q → entry' q = s.entry q)) :
    SameHeaders s (s.withChain
      { s.toCChainState with blockman := { s.blockman with entry := entry' } }) := by
  refine ⟨rfl, rfl, fun p => ?_⟩
  change entry' p = { s.entry p with
    nTx := (entry' p).nTx
    nChainTx := (entry' p).nChainTx
    nStatus := (entry' p).nStatus
    nSequenceId := (entry' p).nSequenceId }
  by_cases hp : OnPath s.entry failedit top p
  · rw [(hpath p).1 hp]
    rfl
  · rw [(hpath p).2 hp]

/-- What `AcceptBlockHeader` can do: reject the header or find it in the index, mark the path
to a failed block below it, or add its entry. -/
inductive HeaderOutcome (node : NodeParams) (s : NodeState) (block : CBlockHeader)
    (nAdjustedTime : Int) (pNew : BlockPtr) : Result BlockPtr × NodeState → Prop where
  | rejected (e : Failure) : HeaderOutcome node s block nAdjustedTime pNew (.error e, s)
  | known {p : BlockPtr} (hknown : s.blockman.blockIndex (block.getHash node.crypto) = some p) :
      HeaderOutcome node s block nAdjustedTime pNew (.ok p, s)
  | marked {pprev failedit : BlockPtr} {e : Failure} {entry' : BlockPtr → CBlockIndex}
      (hheld : s.blockman.Holds pprev) (hfailed : failedit ∈ s.blockman.failedBlocks)
      (hflag : (s.entry failedit).nStatus.failedValid = true)
      (hpath : ∀ q, (OnPath s.entry failedit pprev q → entry' q = (s.entry q).markChild) ∧
        (¬ OnPath s.entry failedit pprev q → entry' q = s.entry q)) :
      HeaderOutcome node s block nAdjustedTime pNew (.error e, s.withChain
        { s.toCChainState with blockman := { s.blockman with entry := entry' } })
  | added {pprev : BlockPtr} {e : CBlockIndex} {best : Option BlockPtr}
      (hnew : s.blockman.blockIndex (block.getHash node.crypto) = none)
      (hcheck : checkNewHeader node s block nAdjustedTime = .ok (pprev, none))
      (hlink : LinkedTo s.entry (block.getHash node.crypto) block pprev e) :
      HeaderOutcome node s block nAdjustedTime pNew (.ok pNew, s.withEntry pNew e best)

theorem acceptBlockHeader_outcome (block : CBlockHeader) (nAdjustedTime : Int)
    (hs : Indexed node s) (hfresh : pNew ∉ s.blocks) :
    HeaderOutcome node s block nAdjustedTime pNew
      (acceptBlockHeader node block nAdjustedTime pNew s) := by
  unfold acceptBlockHeader
  dsimp only
  split
  next hgenesis =>
    obtain ⟨g, hg⟩ := hs.genesis
    unfold addToBlockIndex
    dsimp only
    rw [hgenesis, hg]
    exact .known (hgenesis ▸ hg)
  next hgenesis =>
    split
    next p hknown =>
      split
      · exact .rejected _
      · exact .known hknown
    next hnew =>
      split
      · exact .rejected _
      next pprev hcheck =>
        obtain ⟨hprev, -⟩ := checkNewHeader_ok hcheck
        obtain ⟨e, best, hlink, heq⟩ :=
          addToBlockIndex_eq hs.tree (hs.not_holds hfresh) (hs.holds hprev) hnew hprev
        rw [heq]
        exact .added hnew hcheck hlink
      next pprev failedit hcheck =>
        obtain ⟨hprev, -, -, ⟨-, hnone⟩ | ⟨-, hfound⟩⟩ := checkNewHeader_ok hcheck
        · cases hnone
        · have hheld := hs.holds hprev
          obtain ⟨hmem, hanc, hflag⟩ := findFailed_ok hs.tree hheld hfound
          obtain ⟨entry', heq, hpath⟩ := markFailedChildren_spec hs.tree hheld hanc
            (Nat.lt_succ_self _)
          rw [heq]
          exact .marked hheld ((List.perm_insertionSort _ _).mem_iff.mp hmem) hflag hpath

end AcceptBlockHeader

section ReceivedBlockTransactions

/-- Linking blocks writes `nChainTx` and `nSequenceId` only. -/
structure OnlyLinked (s s' : NodeState) : Prop extends SameHeaders s s' where
  nTx : ∀ p, (s'.entry p).nTx = (s.entry p).nTx
  nStatus : ∀ p, (s'.entry p).nStatus = (s.entry p).nStatus
  failedBlocks : s'.blockman.failedBlocks = s.blockman.failedBlocks
  chain : s'.chain = s.chain
  coins : s'.coinsBestBlock = s.coinsBestBlock

variable {s s' s'' : NodeState} {p : BlockPtr}

theorem OnlyLinked.refl (s : NodeState) : OnlyLinked s s :=
  ⟨.refl s, fun _ => rfl, fun _ => rfl, rfl, rfl, rfl⟩

theorem OnlyLinked.trans (h : OnlyLinked s s') (h' : OnlyLinked s' s'') : OnlyLinked s s'' where
  toSameHeaders := h.toSameHeaders.trans h'.toSameHeaders
  nTx p := (h'.nTx p).trans (h.nTx p)
  nStatus p := (h'.nStatus p).trans (h.nStatus p)
  failedBlocks := h'.failedBlocks.trans h.failedBlocks
  chain := h'.chain.trans h.chain
  coins := h'.coins.trans h.coins

theorem NodeState.updateEntry_entry (s : NodeState) (p q : BlockPtr)
    (f : CBlockIndex → CBlockIndex) :
    (s.updateEntry p f).entry q = if q = p then f (s.entry p) else s.entry q := by
  change update s.entry p (f (s.entry p)) q = _
  rw [update_apply]

theorem CChainState.insertCandidate_eq (s : CChainState) (p : BlockPtr) :
    ∃ candidates, s.insertCandidate p = { s with setBlockIndexCandidates := candidates } := by
  unfold CChainState.insertCandidate
  split
  · exact ⟨s.setBlockIndexCandidates, rfl⟩
  · exact ⟨_, rfl⟩

theorem NodeState.linkBlock_onlyLinked (s : NodeState) (p : BlockPtr) :
    OnlyLinked s (s.linkBlock p) := by
  have hupdate : ∀ nChainTx nSequenceId, OnlyLinked s
      (s.updateEntry p fun e => { e with nChainTx, nSequenceId }) := by
    intro nChainTx nSequenceId
    refine ⟨⟨rfl, rfl, fun q => ?_⟩, fun q => ?_, fun q => ?_, rfl, rfl, rfl⟩
    all_goals
      rw [NodeState.updateEntry_entry]
      split
      next heq => rw [heq]
      next => rfl
  unfold NodeState.linkBlock
  dsimp only
  apply (hupdate _ s.nBlockSequenceId).trans
  split
  · obtain ⟨candidates, heq⟩ := CChainState.insertCandidate_eq _ p
    rw [heq]
    exact ⟨⟨rfl, rfl, fun _ => rfl⟩, fun _ => rfl, fun _ => rfl, rfl, rfl, rfl⟩
  · exact ⟨⟨rfl, rfl, fun _ => rfl⟩, fun _ => rfl, fun _ => rfl, rfl, rfl, rfl⟩

theorem linkQueue_onlyLinked (fuel : Nat) (queue : List BlockPtr) (s : NodeState) :
    OnlyLinked s (linkQueue fuel queue s) := by
  induction fuel generalizing queue s with
  | zero => exact .refl s
  | succ fuel ih =>
    cases queue with
    | nil => exact .refl s
    | cons p queue =>
      rw [linkQueue]
      apply (s.linkBlock_onlyLinked p).trans
      refine OnlyLinked.trans ?_ (ih _ _)
      exact ⟨⟨rfl, rfl, fun _ => rfl⟩, fun _ => rfl, fun _ => rfl, rfl, rfl, rfl⟩

/-- The entry of a block whose data has been written. -/
def CBlockIndex.withData (e : CBlockIndex) (nTx : Nat) : CBlockIndex :=
  { e with
    nTx
    nChainTx := 0
    nStatus := { e.nStatus with haveData := true }.raiseValidity blockValidTransactions }

theorem receivedBlockTransactions_onlyLinked (nTx : Nat) (p : BlockPtr) (s : NodeState) :
    OnlyLinked (s.updateEntry p fun e => e.withData nTx)
      (receivedBlockTransactions nTx p s) := by
  unfold receivedBlockTransactions
  dsimp only
  split
  · exact linkQueue_onlyLinked _ _ _
  · split
    · exact linkQueue_onlyLinked _ _ _
    · split
      · exact ⟨⟨rfl, rfl, fun _ => rfl⟩, fun _ => rfl, fun _ => rfl, rfl, rfl, rfl⟩
      · exact .refl _

theorem receivedBlockTransactions_nStatus (nTx : Nat) (p q : BlockPtr) (s : NodeState) :
    ((receivedBlockTransactions nTx p s).entry q).nStatus =
      if q = p then
        { (s.entry p).nStatus with haveData := true }.raiseValidity blockValidTransactions
      else (s.entry q).nStatus := by
  rw [(receivedBlockTransactions_onlyLinked nTx p s).nStatus, NodeState.updateEntry_entry]
  split
  · rfl
  · rfl

end ReceivedBlockTransactions

/-- What `AcceptBlock` can do with the data of a block: leave the state alone, mark the entry,
or store the data. -/
inductive DataOutcome (node : NodeParams) (input : AcceptInput) (block : CBlock)
    (pindex : BlockPtr) (s : NodeState) : Result Bool × NodeState → Prop where
  | unchanged (r : Result Bool) : DataOutcome node input block pindex s (r, s)
  | condemned {e : Failure} (hlook : ignoresBlock node input.fRequested pindex s = false)
      (hcheck : checkWholeBlock node input block pindex s = .error e)
      (hreason : e.getReason ≠ .blockMutated) :
      DataOutcome node input block pindex s (.error e, s.withChain
        (s.updateStatus pindex fun status => { status with failedValid := true }))
  | stored (hlook : ignoresBlock node input.fRequested pindex s = false)
      (hcheck : checkWholeBlock node input block pindex s = .ok ()) :
      DataOutcome node input block pindex s
        (.ok true, receivedBlockTransactions block.vtx.length pindex s)

theorem acceptBlockData_outcome (node : NodeParams) (input : AcceptInput) (block : CBlock)
    (pindex : BlockPtr) (s : NodeState) :
    DataOutcome node input block pindex s (acceptBlockData node input block pindex s) := by
  unfold acceptBlockData
  split
  · exact .unchanged _
  next hlook =>
    rw [Bool.not_eq_true] at hlook
    split
    next e hcheck =>
      split
      · split
        next hmark => exact .condemned hlook hcheck hmark.2
        · exact .unchanged _
      · exact .unchanged _
    next hcheck =>
      split
      · exact .stored hlook hcheck
      · exact .unchanged _

theorem SameHeaders.of_updateEntry (s : NodeState) (p : BlockPtr) (f : CBlockIndex → CBlockIndex)
    (hf : ∀ e, f e = { e with
      nTx := (f e).nTx
      nChainTx := (f e).nChainTx
      nStatus := (f e).nStatus
      nSequenceId := (f e).nSequenceId }) : SameHeaders s (s.updateEntry p f) := by
  refine ⟨rfl, rfl, fun q => ?_⟩
  rw [NodeState.updateEntry_entry]
  split
  next heq =>
    rw [heq]
    exact hf _
  next => rfl

theorem acceptBlockData_sameHeaders (node : NodeParams) (input : AcceptInput) (block : CBlock)
    (pindex : BlockPtr) (s : NodeState) :
    SameHeaders s (acceptBlockData node input block pindex s).2 := by
  have houtcome := acceptBlockData_outcome node input block pindex s
  generalize acceptBlockData node input block pindex s = after at houtcome ⊢
  cases houtcome with
  | unchanged r => exact .refl s
  | condemned hlook hcheck hreason =>
    exact .of_updateEntry s pindex
      (fun e => { e with nStatus := { e.nStatus with failedValid := true } }) fun _ => rfl
  | stored hlook hcheck =>
    have hdata := SameHeaders.of_updateEntry s pindex
      (fun e => e.withData block.vtx.length) fun _ => rfl
    exact hdata.trans (receivedBlockTransactions_onlyLinked _ pindex s).toSameHeaders

section Arrivals

variable {node : NodeParams} {s : NodeState}

/-- The address of the new entry, if there will be one. -/
def Arrival.pNew : Arrival → BlockPtr
  | .header _ _ pNew => pNew
  | .block _ _ pNew => pNew

def Arrival.getBlockHeader : Arrival → CBlockHeader
  | .header pblock _ _ => pblock
  | .block _ pblock _ => pblock.getBlockHeader

/-- The address is not in use. -/
def FreshArrival (s : NodeState) (a : Arrival) : Prop :=
  a.pNew ∉ s.blocks

/-- An arrival keeps the headers, or adds the entry of its own, which has passed the checks. -/
theorem arrive_cases (hs : Indexed node s) {a : Arrival} (hfresh : FreshArrival s a) :
    SameHeaders s (arrive node s a) ∨
      ∃ nAdjustedTime pprev e best,
        s.blockman.blockIndex (a.getBlockHeader.getHash node.crypto) = none ∧
        checkNewHeader node s a.getBlockHeader nAdjustedTime = .ok (pprev, none) ∧
        LinkedTo s.entry (a.getBlockHeader.getHash node.crypto) a.getBlockHeader pprev e ∧
        SameHeaders (s.withEntry a.pNew e best) (arrive node s a) := by
  obtain ⟨nAdjustedTime, hafter⟩ : ∃ nAdjustedTime, SameHeaders
      (acceptBlockHeader node a.getBlockHeader nAdjustedTime a.pNew s).2 (arrive node s a) := by
    cases a with
    | header block nAdjustedTime pNew => exact ⟨nAdjustedTime, .refl _⟩
    | block input block pNew =>
      refine ⟨input.nAdjustedTime, ?_⟩
      change SameHeaders (acceptBlockHeader node block.getBlockHeader _ pNew s).2
        (acceptBlock node input block pNew s).2
      unfold acceptBlock
      split
      next e after heq =>
        rw [heq]
        exact .refl after
      next p after heq =>
        rw [heq]
        exact acceptBlockData_sameHeaders node input block p after
  have houtcome := acceptBlockHeader_outcome a.getBlockHeader nAdjustedTime hs hfresh
  generalize acceptBlockHeader node a.getBlockHeader nAdjustedTime a.pNew s = stored
    at houtcome hafter
  cases houtcome with
  | rejected e => exact .inl hafter
  | known hknown => exact .inl hafter
  | marked hheld hfailed hflag hpath => exact .inl ((SameHeaders.of_marked hpath).trans hafter)
  | added hnew hcheck hlink => exact .inr ⟨_, _, _, _, hnew, hcheck, hlink, hafter⟩

theorem Indexed.arrive (hs : Indexed node s) {a : Arrival} (hfresh : FreshArrival s a) :
    Indexed node (arrive node s a) := by
  obtain hsame | ⟨_, pprev, e, best, hnew, hcheck, hlink, hsame⟩ := arrive_cases hs hfresh
  · exact hs.of_sameHeaders hsame
  · obtain ⟨hprev, -⟩ := checkNewHeader_ok hcheck
    exact (hs.withEntry hfresh (hs.holds hprev) hnew hlink).of_sameHeaders hsame

end Arrivals

section Genesis

/-- A node that has connected the genesis block and knows no other. -/
structure AtGenesis (node : NodeParams) (s : NodeState) (g : BlockPtr) : Prop where
  blocks : s.blocks = [g]
  blockIndex : ∀ hash, s.blockman.blockIndex hash =
    if hash = node.params.hashGenesisBlock then some g else none
  hashBlock : (s.entry g).hashBlock = node.params.hashGenesisBlock
  pprev : (s.entry g).pprev = none
  pskip : (s.entry g).pskip = none
  nHeight : (s.entry g).nHeight = 0
  haveData : (s.entry g).nStatus.haveData = true
  unflagged : (s.entry g).nStatus.failed = false
  chain : s.chain = [some g]
  coins : s.coinsBestBlock = node.params.hashGenesisBlock

variable {node : NodeParams} {s₀ : NodeState} {g : BlockPtr}

theorem AtGenesis.isAncestor_iff (h : AtGenesis node s₀ g) (a : BlockPtr) :
    IsAncestor s₀.entry a g ↔ a = g := by
  constructor
  · intro ha
    cases ha with
    | refl => rfl
    | step hprev _ =>
      rw [h.pprev] at hprev
      cases hprev
  · rintro rfl
    exact .refl a

theorem AtGenesis.indexed (h : AtGenesis node s₀ g) : Indexed node s₀ :=
  .of_genesis h.blocks h.blockIndex h.hashBlock h.pprev h.pskip h.nHeight

theorem AtGenesis.holds (h : AtGenesis node s₀ g) : s₀.blockman.Holds g := by
  rw [← h.indexed.listed, h.blocks]
  exact List.mem_singleton_self g

theorem AtGenesis.eq_of_holds (h : AtGenesis node s₀ g) {p : BlockPtr}
    (hp : s₀.blockman.Holds p) : p = g := by
  rw [← h.indexed.listed, h.blocks] at hp
  exact List.mem_singleton.mp hp

end Genesis

theorem genesisState_atGenesis {node : NodeParams} (hnode : node.params.hashGenesisBlock = 77) :
    AtGenesis node genesisState 0 := by
  refine ⟨rfl, fun _ => ?_, hnode.symm, rfl, rfl, rfl, rfl, rfl, rfl, hnode.symm⟩
  rw [hnode]
  rfl

end Verium
