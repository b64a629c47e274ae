import Verium.Chain.ChainWork
import Verium.Chain.LoadSpec

/-!
The skip list of the block index. In every index that `AddToBlockIndex` builds, or that
`LoadBlockIndex` builds again by height, `GetAncestor` returns what following `pprev` gives, and
every entry with a parent has its skip pointer at `GetSkipHeight` of its height. The entry
without a parent has none.
-/

namespace Verium

open Lib Function

/-- Follow `pprev` the given number of times. -/
def followPprev (entry : BlockPtr → CBlockIndex) : Nat → BlockPtr → Option BlockPtr
  | 0, p => some p
  | n + 1, p => (entry p).pprev.bind (followPprev entry n)

/-- The indexes that can be built from the empty one. New entries get fresh addresses, and no
header contains its own hash. -/
inductive BuiltIndex (node : NodeParams) : NodeState → Prop where
  | empty : BuiltIndex node .empty
  | add {s s' : NodeState} {block : CBlockHeader} {pNew pindex : BlockPtr} :
      BuiltIndex node s → pNew ∉ s.blocks → block.hashPrevBlock ≠ block.getHash node.crypto →
      addToBlockIndex node block pNew s = (.ok pindex, s') → BuiltIndex node s'
  | load {s s' : NodeState} {childWritten : BlockPtr → Bool} :
      BuiltIndex node s → s.loadBlockIndex childWritten = .ok s' → BuiltIndex node s'

/-- The entries have a skip pointer where they have a parent. -/
structure SkipIndex (s : NodeState) : Prop extends IndexTree s where
  skip : ∀ {p}, s.blockman.Holds p → (s.entry p).pskip.isSome = (s.entry p).pprev.isSome

section Built

variable {node : NodeParams} {s : NodeState} {block : CBlockHeader} {pNew : BlockPtr}
  {e : CBlockIndex} {best : Option BlockPtr}

theorem skipIndex_empty : SkipIndex .empty := by
  have hnone : ∀ p, ¬ NodeState.empty.blockman.Holds p := by
    intro p hp
    cases hp
  refine ⟨⟨⟨⟨?_, ?_, ?_⟩, ?_⟩, ?_, ?_⟩, ?_⟩
  · exact fun hp => absurd hp (hnone _)
  · exact fun hp => absurd hp (hnone _)
  · exact fun hp => absurd hp (hnone _)
  · exact fun hp => absurd hp (hnone _)
  · intro hash p hfile
    cases hfile
  · intro p
    exact ⟨fun hp => absurd hp List.not_mem_nil, fun hp => absurd hp (hnone p)⟩
  · exact fun hp => absurd hp (hnone _)

theorem SkipIndex.withEntry (hs : SkipIndex s) (hfresh : pNew ∉ s.blocks)
    (hnew : s.blockman.blockIndex e.hashBlock = none)
    (htree : BlockTree (update s.entry pNew e) fun p => p = pNew ∨ s.blockman.Holds p)
    (hskip : e.pskip.isSome = e.pprev.isSome) : SkipIndex (s.withEntry pNew e best) := by
  refine ⟨hs.toIndexTree.withEntry hfresh hnew htree, fun {p} hp => ?_⟩
  rw [holds_withEntry hnew] at hp
  change (update s.entry pNew e p).pskip.isSome = (update s.entry pNew e p).pprev.isSome
  rcases hp with rfl | hp
  · rw [update_self]
    exact hskip
  · rw [update_of_mem (hs.not_holds hfresh) hp]
    exact hs.skip hp

/-- `AddToBlockIndex` leaves the index as it is for a known header, and adds one entry else. -/
theorem SkipIndex.addToBlockIndex_cases (hs : SkipIndex s) (hfresh : pNew ∉ s.blocks)
    (hhash : block.hashPrevBlock ≠ block.getHash node.crypto) :
    ∃ pindex s', addToBlockIndex node block pNew s = (.ok pindex, s') ∧
      (s' = s ∨ ∃ e best, s' = s.withEntry pNew e best ∧
        s.blockman.blockIndex e.hashBlock = none ∧
        (BlockTree (update s.entry pNew e) fun p => p = pNew ∨ s.blockman.Holds p) ∧
        (∀ q, e.pprev = some q → s.blockman.Holds q) ∧ TimeSet s.entry e ∧
        e.pskip.isSome = e.pprev.isSome) := by
  have hnot := hs.not_holds hfresh
  cases hnew : s.blockman.blockIndex (block.getHash node.crypto) with
  | some pindex =>
    refine ⟨pindex, s, ?_, .inl rfl⟩
    unfold addToBlockIndex
    dsimp only
    rw [hnew]
  | none =>
    cases hprev : s.blockman.blockIndex block.hashPrevBlock with
    | none =>
      obtain ⟨e, best, hblock, hpprev, hpskip, hheight, htime, -, -, heq⟩ :=
        addToBlockIndex_root pNew hhash hnew hprev
      have hroot : ∀ q, e.pprev ≠ some q := by
        intro q hq
        rw [hpprev] at hq
        cases hq
      refine ⟨pNew, _, heq, .inr ⟨e, best, rfl, hblock ▸ hnew, ?_, ?_, ?_, ?_⟩⟩
      · refine hs.tree.insert hnot (fun _ => hheight) (fun q hq => absurd hq (hroot q)) ?_
        intro a ha
        rw [hpskip] at ha
        cases ha
      · exact fun q hq => absurd hq (hroot q)
      · rw [TimeSet, hpprev]
        exact htime
      · rw [hpprev, hpskip]
    | some pprev =>
      have hheld := hs.holds hprev
      obtain ⟨skip, best, hanc, hat, heq⟩ :=
        addToBlockIndex_onTop hs.tree hnot hheld hnew hprev
      refine ⟨pNew, _, heq, .inr ⟨_, best, rfl, hnew, ?_, ?_, rfl, rfl⟩⟩
      · refine hs.tree.insert hnot (fun hnone => absurd hnone (Option.some_ne_none _)) ?_ ?_
        · rintro q ⟨⟩
          exact ⟨hheld, rfl⟩
        · rintro q ⟨⟩
          exact ⟨pprev, rfl, hanc, hat⟩
      · rintro q ⟨⟩
        exact hheld

theorem SkipIndex.addToBlockIndex (hs : SkipIndex s) (hfresh : pNew ∉ s.blocks)
    (hhash : block.hashPrevBlock ≠ block.getHash node.crypto) :
    ∃ pindex s', addToBlockIndex node block pNew s = (.ok pindex, s') ∧ SkipIndex s' := by
  obtain ⟨pindex, s', hadd, rfl | ⟨e, best, rfl, hnew, htree, -, -, hskip⟩⟩ :=
    hs.addToBlockIndex_cases hfresh hhash
  · exact ⟨pindex, _, hadd, hs⟩
  · exact ⟨pindex, _, hadd, hs.withEntry hfresh hnew htree hskip⟩

theorem SkipIndex.loadBlockIndex (hs : SkipIndex s) (childWritten : BlockPtr → Bool) :
    ∃ s', s.loadBlockIndex childWritten = .ok s' ∧ SkipIndex s' := by
  obtain ⟨c, hindex, h, hhanded⟩ := loadBlockIndex_spec hs.tree hs.listed childWritten
  refine ⟨c, hindex, hs.toIndexTree.congr h.blockIndex h.blocks h.hashBlock (h.tree hs.tree),
    fun {p} hp => ?_⟩
  rw [h.holds_iff] at hp
  exact (hhanded p hp).skip

theorem BuiltIndex.skipIndex (h : BuiltIndex node s) : SkipIndex s := by
  induction h with
  | empty => exact skipIndex_empty
  | add _ hfresh hhash hadd ih =>
    obtain ⟨pindex, s', hadd', hs'⟩ := ih.addToBlockIndex hfresh hhash
    rw [hadd] at hadd'
    cases hadd'
    exact hs'
  | load _ hload ih =>
    obtain ⟨s', hload', hs'⟩ := ih.loadBlockIndex _
    rw [hload] at hload'
    cases hload'
    exact hs'

end Built

section Ancestors

variable {entry : BlockPtr → CBlockIndex} {S : BlockPtr → Prop}

theorem followPprev_of_isAncestor (ht : BlockTree entry S) {a p : BlockPtr} (hp : S p)
    (h : IsAncestor entry a p) :
    followPprev entry ((entry p).nHeight - (entry a).nHeight) p = some a := by
  induction h with
  | refl =>
    rw [Nat.sub_self]
    rfl
  | @step x y hparent hanc ih =>
    have hy := ht.graded.mem hp hparent
    have hle := ht.graded.height_le hy hanc
    have hsucc := ht.graded.succ hp hparent
    have hsteps : (entry x).nHeight - (entry a).nHeight =
        (entry y).nHeight - (entry a).nHeight + 1 := by
      omega
    rw [hsteps, followPprev, hparent]
    exact ih hy

/-- The loop of `GetAncestor` ends after as many rounds as the entry is high, or fewer. -/
theorem getAncestorLoop_exact (ht : BlockTree entry S) {p : BlockPtr} (hp : S p) {height : Nat}
    (hle : height ≤ (entry p).nHeight) :
    ∃ a, followPprev entry ((entry p).nHeight - height) p = some a ∧
      ∀ fuel, (entry p).nHeight ≤ fuel →
        getAncestorLoop entry height fuel p (entry p).nHeight = .ok a := by
  obtain ⟨a, ha, hheight⟩ := ht.graded.exists_ancestor hp hle
  refine ⟨a, ?_, ?_⟩
  · rw [← hheight]
    exact followPprev_of_isAncestor ht hp ha
  · intro fuel hfuel
    obtain ⟨b, hloop, hb, hbheight⟩ := getAncestorLoop_ok ht hp hle hfuel
    rw [hloop, ht.graded.ancestor_unique hp hb ha (hbheight.trans hheight.symm)]

end Ancestors

/-- In every index that can be built, `GetAncestor` gives what following `pprev` gives, at every
height from zero to the entry's own, and null at others, and its loop ends; the skip pointer of
every entry with a parent is the ancestor at `GetSkipHeight` of its height, which is lower; and
building the index further fails no assertion. -/
theorem getAncestor_exact {node : NodeParams} {s : NodeState} (h : BuiltIndex node s) :
    (∀ p ∈ s.blocks, ∀ height : Int,
      (0 ≤ height ∧ height ≤ (s.entry p).nHeight →
        ∃ a, followPprev s.entry ((s.entry p).nHeight - height.toNat) p = some a ∧
          getAncestor s.entry p height = .ok (some a) ∧
          ∀ fuel, (s.entry p).nHeight ≤ fuel →
            getAncestorLoop s.entry height.toNat fuel p (s.entry p).nHeight = .ok a) ∧
      (height < 0 ∨ (s.entry p).nHeight < height →
        getAncestor s.entry p height = .ok none)) ∧
    (∀ p ∈ s.blocks, ∀ q, (s.entry p).pprev = some q →
      ∃ a, (s.entry p).pskip = some a ∧
        followPprev s.entry ((s.entry p).nHeight - getSkipHeight (s.entry p).nHeight) p = some a ∧
        (s.entry a).nHeight = getSkipHeight (s.entry p).nHeight ∧
        (s.entry a).nHeight < (s.entry p).nHeight) ∧
    (∀ block pNew, pNew ∉ s.blocks → block.hashPrevBlock ≠ block.getHash node.crypto →
      ∃ pindex s', addToBlockIndex node block pNew s = (.ok pindex, s')) ∧
    ∀ childWritten, ∃ s', s.loadBlockIndex childWritten = .ok s' := by
  have hs := h.skipIndex
  refine ⟨?_, ?_, ?_, ?_⟩
  · intro p hmem height
    have hp := hs.listed.mp hmem
    constructor
    · rintro ⟨hlow, hhigh⟩
      obtain ⟨a, hfollow, hloop⟩ := getAncestorLoop_exact hs.tree hp
        (show height.toNat ≤ (s.entry p).nHeight by omega)
      refine ⟨a, hfollow, ?_, hloop⟩
      rw [getAncestor, if_neg (by omega), hloop _ le_rfl]
      rfl
    · intro hout
      rw [getAncestor, if_pos (by omega)]
  · intro p hmem q hprev
    have hp := hs.listed.mp hmem
    have hsome : (s.entry p).pskip.isSome := by
      rw [hs.skip hp, hprev]
      rfl
    obtain ⟨a, ha⟩ := Option.isSome_iff_exists.mp hsome
    obtain ⟨hanc, hheight⟩ := hs.tree.skip hp ha
    have hsucc := hs.tree.graded.succ hp hprev
    have hlow := getSkipHeight_lt (show 0 < (s.entry p).nHeight by omega)
    refine ⟨a, ha, ?_, hheight, by omega⟩
    rw [← hheight]
    exact followPprev_of_isAncestor hs.tree hp hanc
  · intro block pNew hfresh hhash
    obtain ⟨pindex, s', hadd, -⟩ := hs.addToBlockIndex hfresh hhash
    exact ⟨pindex, s', hadd⟩
  · intro childWritten
    obtain ⟨s', hload, -⟩ := hs.loadBlockIndex childWritten
    exact ⟨s', hload⟩

/-- The index with the genesis header and one header on top of it. -/
def pairIndex : NodeState :=
  (addToBlockIndex plainNode (plainHeader (plainGenesis.getHash plainNode.crypto) 1 0x1f1fffff) 1
    (addToBlockIndex plainNode plainGenesis 0 .empty).2).2

theorem BuiltIndex.next {node : NodeParams} {s : NodeState} {block : CBlockHeader}
    {pNew pindex : BlockPtr} (h : BuiltIndex node s) (hfresh : pNew ∉ s.blocks)
    (hhash : block.hashPrevBlock ≠ block.getHash node.crypto)
    (hadd : (addToBlockIndex node block pNew s).1 = .ok pindex) :
    BuiltIndex node (addToBlockIndex node block pNew s).2 := by
  refine @BuiltIndex.add node s _ block pNew pindex h hfresh hhash ?_
  rw [← hadd]

theorem genesis_builtIndex :
    BuiltIndex plainNode (addToBlockIndex plainNode plainGenesis 0 .empty).2 := by
  have hadd : (addToBlockIndex plainNode plainGenesis 0 .empty).1 = .ok 0 := by decide +kernel
  exact BuiltIndex.empty.next List.not_mem_nil (by decide +kernel) hadd

theorem pairIndex_builtIndex : BuiltIndex plainNode pairIndex := by
  have hadd : (addToBlockIndex plainNode
      (plainHeader (plainGenesis.getHash plainNode.crypto) 1 0x1f1fffff) 1
      (addToBlockIndex plainNode plainGenesis 0 .empty).2).1 = .ok 1 := by decide +kernel
  exact genesis_builtIndex.next (by decide +kernel) (by decide +kernel) hadd

theorem pairIndex_getAncestor :
    ∃ a, followPprev pairIndex.entry 1 1 = some a ∧
      getAncestor pairIndex.entry 1 0 = .ok (some a) := by
  have hheight : (pairIndex.entry 1).nHeight = 1 := by decide +kernel
  obtain ⟨a, hfollow, hget, -⟩ := ((getAncestor_exact pairIndex_builtIndex).1 1
    (by decide +kernel) 0).1 ⟨le_rfl, by rw [hheight]; decide⟩
  rw [hheight] at hfollow
  exact ⟨a, hfollow, hget⟩

/-- The skip pointer of genesis is null. -/
theorem genesis_without_pskip :
    ∃ s, BuiltIndex plainNode s ∧ ∃ p ∈ s.blocks, (s.entry p).pskip = none :=
  ⟨_, genesis_builtIndex, 0, by decide +kernel, by decide +kernel⟩

end Verium
